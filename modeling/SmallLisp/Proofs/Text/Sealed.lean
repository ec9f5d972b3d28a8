import Mathlib.Data.List.TakeWhile
import SmallLisp.Text.Blank

/-!
# Texts that may be cut at their end

A text is sealed when it ends in a newline that no backslash and no dispatch mark stands right before: such
a newline is part of no token, unless the text ends inside a string. What is cut off the front of a sealed
text stays the same when more text follows (`splitRun_append_of_ne_nil` and the lemmas like it), and what
is left over is sealed again (`Sealed.of_append`).
-/

namespace SmallLisp.Text

/-- The text ends in a newline, and neither a backslash nor a dispatch mark stands right before it. -/
def Sealed (text : List Char) : Prop :=
  ∃ body, text = body ++ ['\n'] ∧ body.getLast? ≠ some '\\' ∧ body.getLast? ≠ some '#'

/-- Whether a text is sealed shows in its last two characters. -/
theorem sealed_iff (text : List Char) :
    Sealed text ↔ text.getLast? = some '\n' ∧ text.dropLast.getLast? ≠ some '\\' ∧
      text.dropLast.getLast? ≠ some '#' := by
  constructor
  · rintro ⟨body, rfl, hbackslash, hmark⟩
    rw [List.dropLast_concat]
    exact ⟨List.getLast?_concat, hbackslash, hmark⟩
  · rintro ⟨hlast, hbackslash, hmark⟩
    obtain ⟨body, rfl⟩ := List.getLast?_eq_some_iff.1 hlast
    rw [List.dropLast_concat] at hbackslash hmark
    exact ⟨body, rfl, hbackslash, hmark⟩

instance (text : List Char) : Decidable (Sealed text) :=
  decidable_of_iff' _ (sealed_iff text)

namespace Sealed

variable {text before rest : List Char}

theorem ne_nil (h : Sealed text) : text ≠ [] := by
  obtain ⟨body, rfl, -, -⟩ := h
  simp

theorem newline_mem (h : Sealed text) : '\n' ∈ text := by
  obtain ⟨body, rfl, -, -⟩ := h
  simp

theorem getLast?_eq (h : Sealed text) : text.getLast? = some '\n' := by
  obtain ⟨body, rfl, -, -⟩ := h
  simp

/-- What is left of a sealed text is sealed. -/
theorem of_append (h : Sealed (before ++ rest)) (hrest : rest ≠ []) : Sealed rest := by
  obtain ⟨body, hbody, hbackslash, hmark⟩ := h
  rcases List.eq_nil_or_concat rest with rfl | ⟨inner, last, rfl⟩
  · exact absurd rfl hrest
  · rw [List.concat_eq_append, ← List.append_assoc] at hbody
    obtain ⟨rfl, hlast⟩ := List.append_inj' hbody rfl
    refine ⟨inner, by rw [List.concat_eq_append, hlast], fun hinner => hbackslash ?_,
      fun hinner => hmark ?_⟩
    · rw [List.getLast?_append, hinner]
      rfl
    · rw [List.getLast?_append, hinner]
      rfl

theorem of_cons {c : Char} (h : Sealed (c :: rest)) (hrest : rest ≠ []) : Sealed rest :=
  of_append (show Sealed ([c] ++ rest) from h) hrest

/-- A sealed text after nothing or after another sealed text is sealed. -/
theorem append (h : Sealed text) (hbefore : before = [] ∨ Sealed before) :
    Sealed (before ++ text) := by
  rcases hbefore with rfl | hbefore
  · exact h
  · obtain ⟨body, rfl, hbackslash, hmark⟩ := h
    refine ⟨before ++ body, (List.append_assoc _ _ _).symm, ?_, ?_⟩
    · rw [List.getLast?_append, hbefore.getLast?_eq]
      cases hlast : body.getLast? <;> simp_all
    · rw [List.getLast?_append, hbefore.getLast?_eq]
      cases hlast : body.getLast? <;> simp_all

/-- Something follows every character but a newline. -/
theorem ne_nil_of_cons {c : Char} (h : Sealed (c :: rest)) (hc : c ≠ '\n') : rest ≠ [] := by
  rintro rfl
  have hlast := h.getLast?_eq
  exact hc (by simpa using hlast)

/-- Something follows the character after a backslash or a dispatch mark. -/
theorem ne_nil_of_cons_cons {c d : Char} (h : Sealed (c :: d :: rest)) (hc : c = '\\' ∨ c = '#') :
    rest ≠ [] := by
  rintro rfl
  obtain ⟨body, hbody, hbackslash, hmark⟩ := h
  obtain ⟨rfl, -⟩ := List.append_inj' (show [c] ++ [d] = body ++ ['\n'] from hbody) rfl
  rcases hc with rfl | rfl
  · exact hbackslash rfl
  · exact hmark rfl

end Sealed

/-! ## Cuts of a sealed text -/

/-- A run that ends within the text ends there before more text too. -/
theorem splitRun_append_of_ne_nil {text : List Char} (h : (splitRun text).2 ≠ [])
    (more : List Char) :
    splitRun (text ++ more) = ((splitRun text).1, (splitRun text).2 ++ more) := by
  induction text with
  | nil => exact absurd rfl h
  | cons c rest ih =>
    by_cases hc : isTerminator c = true
    · simp [splitRun, hc]
    · have hrest : (splitRun rest).2 ≠ [] := by
        simpa only [splitRun, List.dropWhile_cons, hc, Bool.not_false, if_true] using h
      have happend := ih hrest
      simp only [splitRun, Prod.mk.injEq] at happend ⊢
      simp only [List.cons_append, List.takeWhile_cons, List.dropWhile_cons, hc, Bool.not_false,
        if_true, happend, and_self]

/-- The newline of a sealed text ends every run in it. -/
theorem splitRun_ne_nil_of_sealed {text : List Char} (h : Sealed text) : (splitRun text).2 ≠ [] := by
  intro hnil
  have hall := List.dropWhile_eq_nil_iff.1 hnil '\n' h.newline_mem
  exact absurd hall (by decide)

/-- In a text that ends in a newline no comment is open at the end, so layout that reaches the end goes
on in what follows. -/
theorem splitLayout_append_of_nil {inComment : Bool} {text : List Char}
    (hlast : text.getLast? = some '\n') (h : (splitLayout inComment text).2 = [])
    (more : List Char) :
    splitLayout inComment (text ++ more) =
      (text ++ (splitLayout false more).1, (splitLayout false more).2) := by
  induction text generalizing inComment with
  | nil => cases hlast
  | cons c rest ih =>
    simp only [splitLayout, List.cons_append] at h ⊢
    cases rest with
    | nil =>
      -- the last newline also ends a comment, so what follows begins outside of one
      obtain rfl : c = '\n' := by simpa using hlast
      cases inComment <;> rfl
    | cons d rest =>
      have hlast' : (d :: rest).getLast? = some '\n' := by simpa using hlast
      split at h
      · next hin =>
        rw [← List.cons_append, ih hlast' h]
        simp [hin]
      · next hin =>
        split at h
        · next hblank =>
          rw [← List.cons_append, ih hlast' h]
          simp [hin, hblank]
        · next hblank =>
          split at h
          · next hcomment =>
            rw [← List.cons_append, ih hlast' h]
            simp [hin, hblank, hcomment]
          · cases h

/-- Layout that ends within the text ends there before more text too. -/
theorem splitLayout_append_of_ne_nil {inComment : Bool} {text : List Char}
    (h : (splitLayout inComment text).2 ≠ []) (more : List Char) :
    splitLayout inComment (text ++ more) =
      ((splitLayout inComment text).1, (splitLayout inComment text).2 ++ more) := by
  induction text generalizing inComment with
  | nil => exact absurd rfl h
  | cons c rest ih =>
    simp only [splitLayout, List.cons_append] at h ⊢
    split at h
    · next hin => simp [hin, ih h]
    · next hin =>
      split at h
      · next hblank => simp [hin, hblank, ih h]
      · next hblank =>
        split at h
        · next hcomment => simp [hin, hblank, hcomment, ih h]
        · next hcomment => simp [hin, hblank, hcomment]

/-- The rest of a line ends at the newline that is there, whatever follows it. -/
theorem splitTrailer_append_of_mem {inComment : Bool} {text : List Char} (h : '\n' ∈ text)
    (more : List Char) :
    splitTrailer inComment (text ++ more) =
      ((splitTrailer inComment text).1, (splitTrailer inComment text).2 ++ more) := by
  induction text generalizing inComment with
  | nil => cases h
  | cons c rest ih =>
    simp only [splitTrailer, List.cons_append]
    by_cases hc : c = '\n'
    · simp [hc]
    · have hmem : '\n' ∈ rest := (List.mem_cons.1 h).resolve_left (Ne.symm hc)
      by_cases hcomment : (inComment || c == ';') = true
      · simp [hc, hcomment, ih hmem]
      · by_cases hblank : isBlank c = true
        · simp [hc, hcomment, hblank, ih hmem]
        · simp [hc, hcomment, hblank]

/-- A trailer ends before the first newline. -/
theorem splitTrailer_ne_nil_of_mem {inComment : Bool} {text : List Char} (h : '\n' ∈ text) :
    (splitTrailer inComment text).2 ≠ [] := by
  induction text generalizing inComment with
  | nil => cases h
  | cons c rest ih =>
    simp only [splitTrailer]
    by_cases hc : c = '\n'
    · simp [hc]
    · have hmem : '\n' ∈ rest := (List.mem_cons.1 h).resolve_left (Ne.symm hc)
      split
      · simp
      · split
        · exact ih hmem
        · split
          · exact ih hmem
          · simp

/-- The first line ends at the first newline, whatever follows. -/
theorem afterLine_append_of_mem {text : List Char} (h : '\n' ∈ text) (more : List Char) :
    afterLine (text ++ more) = afterLine text ++ more := by
  induction text with
  | nil => cases h
  | cons c rest ih =>
    simp only [List.cons_append, afterLine]
    by_cases hc : c = '\n'
    · simp [hc]
    · have hmem : '\n' ∈ rest := (List.mem_cons.1 h).resolve_left (Ne.symm hc)
      simp [hc, ih hmem]

/-- The lines after the current one are the end of the text. -/
theorem exists_append_afterLine (text : List Char) : ∃ before, text = before ++ afterLine text := by
  induction text with
  | nil => exact ⟨[], rfl⟩
  | cons c rest ih =>
    obtain ⟨before, hbefore⟩ := ih
    simp only [afterLine]
    split
    · exact ⟨[c], rfl⟩
    · exact ⟨c :: before, by rw [List.cons_append, ← hbefore]⟩

end SmallLisp.Text
