import SmallLisp.Text.Blank

/-!
# Layout between tokens

Layout is blanks and comments that end with their line. In front of anything it is skipped whole
(`splitLayout_layout`), and it does not matter that the rest of a line was skipped before
(`splitLayout_splitTrailer`). A separator is layout of one character or more, so a run of ordinary
characters before it ends there (`splitRun_of_terminated`).
-/

namespace SmallLisp.Text

/-- A text made of blanks and of comments that a newline ends. -/
inductive Layout : List Char → Prop where
  | nil : Layout []
  | blank {c : Char} {rest : List Char} (hc : isBlank c = true) (h : Layout rest) : Layout (c :: rest)
  | comment {body rest : List Char} (hbody : '\n' ∉ body) (h : Layout rest) :
      Layout (';' :: (body ++ '\n' :: rest))

/-- A text of layout that keeps what stands before it and after it apart. -/
structure Separator where
  text : String
  layout : Layout text.toList
  ne_nil : text.toList ≠ []

/-- Nothing more, or a character that ends a run. -/
def Terminated (rest : List Char) : Prop :=
  ∀ c ∈ rest.head?, isTerminator c = true

/-- Nothing more, or a character that layout cannot start with. -/
def Solid (text : List Char) : Prop :=
  ∀ c ∈ text.head?, isBlank c = false ∧ c ≠ ';'

theorem terminated_nil : Terminated [] := by
  intro c hc
  cases hc

theorem terminated_cons {c : Char} (hc : isTerminator c = true) (rest : List Char) :
    Terminated (c :: rest) := by
  intro d hd
  cases hd
  exact hc

/-- A separator ends any token before it. -/
theorem Separator.terminated (s : Separator) (rest : List Char) :
    Terminated (s.text.toList ++ rest) := by
  have hne := s.ne_nil
  have hlayout := s.layout
  generalize s.text.toList = text at hne hlayout
  cases hlayout with
  | nil => exact absurd rfl hne
  | blank hc h => exact terminated_cons (by simp [isTerminator, hc]) _
  | comment hbody h => exact terminated_cons (by decide) _

/-! ## Runs -/

/-- A digit ends no token. -/
theorem isTerminator_of_isDigit {c : Char} (h : isDigit c = true) : isTerminator c = false := by
  have hdigits : ∀ n < 58, 48 ≤ n → isTerminator (Char.ofNat n) = false := by decide
  obtain ⟨hlower, hupper⟩ := Bool.and_eq_true_iff.1 h
  have hlower' : 48 ≤ c.toNat := of_decide_eq_true hlower
  have hupper' : c.toNat ≤ 57 := of_decide_eq_true hupper
  rw [← Char.ofNat_toNat c]
  exact hdigits c.toNat (by omega) hlower'

/-- The front of a text in a class of characters is cut off where the class ends. -/
theorem cut_append {p : Char → Bool} {front rest : List Char} (hfront : ∀ c ∈ front, p c = true)
    (hrest : ∀ c ∈ rest.head?, p c = false) :
    (front ++ rest).takeWhile p = front ∧ (front ++ rest).dropWhile p = rest := by
  have hstop : rest.takeWhile p = [] ∧ rest.dropWhile p = rest := by
    cases rest with
    | nil => exact ⟨rfl, rfl⟩
    | cons c others =>
      have hc : p c = false := hrest c rfl
      simp [hc]
  rw [List.takeWhile_append_of_pos hfront, List.dropWhile_append_of_pos hfront, hstop.1, hstop.2,
    List.append_nil]
  exact ⟨rfl, rfl⟩

/-- Characters that do not end a run, as one test. -/
theorem ordinary_of_all {run : List Char} (h : (run.all fun c => !isTerminator c) = true) :
    ∀ c ∈ run, isTerminator c = false := by
  simpa using h

theorem splitRun_of_terminated {run rest : List Char} (hrun : ∀ c ∈ run, isTerminator c = false)
    (hrest : Terminated rest) : splitRun (run ++ rest) = (run, rest) := by
  have hordinary : ∀ c ∈ run, (!isTerminator c) = true := by
    intro c hc
    rw [hrun c hc]
    rfl
  have hstop : ∀ c ∈ rest.head?, (!isTerminator c) = false := by
    intro c hc
    rw [hrest c hc]
    rfl
  obtain ⟨hfront, hback⟩ := cut_append hordinary hstop
  rw [splitRun, hfront, hback]

/-! ## Skipping layout -/

/-- A comment lasts until its newline. -/
theorem splitLayout_comment {body : List Char} (hbody : '\n' ∉ body) (rest : List Char) :
    (splitLayout true (body ++ '\n' :: rest)).2 = (splitLayout false rest).2 := by
  induction body with
  | nil => rfl
  | cons c others ih =>
    have hc : c ≠ '\n' := fun hc => hbody (hc ▸ List.mem_cons_self)
    have hothers : '\n' ∉ others := fun hmem => hbody (List.mem_cons_of_mem c hmem)
    simp only [List.cons_append, splitLayout, if_true, bne_iff_ne.2 hc]
    exact ih hothers

/-- Layout in front of a text is skipped. -/
theorem splitLayout_layout {layout : List Char} (h : Layout layout) (rest : List Char) :
    (splitLayout false (layout ++ rest)).2 = (splitLayout false rest).2 := by
  induction h with
  | nil => rfl
  | blank hc h ih => simp [splitLayout, hc, ih]
  | @comment body more hbody h ih =>
    have hstart : (splitLayout false (';' :: (body ++ '\n' :: (more ++ rest)))).2 =
        (splitLayout true (body ++ '\n' :: (more ++ rest))).2 := rfl
    rw [List.cons_append, List.append_assoc, List.cons_append, hstart, splitLayout_comment hbody, ih]

theorem splitLayout_of_solid {text : List Char} (h : Solid text) :
    splitLayout false text = ([], text) := by
  cases text with
  | nil => rfl
  | cons c rest =>
    obtain ⟨hblank, hcomment⟩ := h c rfl
    simp [splitLayout, hblank, hcomment]

/-- What is left when layout was skipped does not start with layout. -/
theorem solid_splitLayout (inComment : Bool) (text : List Char) :
    Solid (splitLayout inComment text).2 := by
  induction text generalizing inComment with
  | nil =>
    intro c hc
    cases hc
  | cons d others ih =>
    simp only [splitLayout]
    split
    · exact ih _
    · split
      · exact ih _
      · next hblank =>
        split
        · exact ih _
        · next hcomment =>
          intro c hc
          cases hc
          exact ⟨by simpa using hblank, by simpa using hcomment⟩

/-- What is skipped on the rest of a line would have been skipped as layout. -/
theorem splitLayout_splitTrailer (inComment : Bool) (text : List Char) :
    (splitLayout false (splitTrailer inComment text).2).2 = (splitLayout inComment text).2 := by
  induction text generalizing inComment with
  | nil => rfl
  | cons c rest ih =>
    by_cases hnewline : c = '\n'
    · subst hnewline
      cases inComment <;> rfl
    · by_cases hcomment : inComment = true ∨ c = ';'
      · have htrailer : (splitTrailer inComment (c :: rest)).2 = (splitTrailer true rest).2 := by
          rcases hcomment with rfl | rfl <;> simp [splitTrailer, hnewline]
        have hlayout : (splitLayout inComment (c :: rest)).2 = (splitLayout true rest).2 := by
          rcases hcomment with rfl | rfl
          · simp only [splitLayout, if_true, bne_iff_ne.2 hnewline]
          · cases inComment <;> rfl
        rw [htrailer, hlayout, ih]
      · obtain ⟨hin, hc⟩ := not_or.1 hcomment
        by_cases hblank : isBlank c = true
        · simp [splitTrailer, splitLayout, hnewline, hin, hc, hblank, ih]
        · simp [splitTrailer, splitLayout, hnewline, hin, hc, hblank]

end SmallLisp.Text
