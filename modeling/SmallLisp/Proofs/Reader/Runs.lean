import Mathlib.Data.Nat.Digits.Defs
import SmallLisp.Proofs.Builtin.Arithmetic
import SmallLisp.Proofs.Decimal.ReadBack
import SmallLisp.Proofs.Token.Spelling
import SmallLisp.Reader.Cursor

/-!
# What a run of characters is taken for

A run that does not start like a number is a reserved word or a symbol. One that does is an integer if it is a sign
and digits, or digits only, and their value fits; nothing is ever taken for an integer of another value. Integer
numerals that do not fit are the doubles nearest to them, if these are finite, and all else is a finite double or no
number. `Token.RunMeans` says this of a run and of what it is taken for, and `Token.runMeans_runNamed` that the lexer
does it. Main statement: `Cursor.next_run`.
-/

namespace SmallLisp

open Text

/-! ## Integer numerals -/

namespace Numeral

/-- The number that digits write, the last one counting ones. -/
def value (ds : List Char) : Nat :=
  Nat.ofDigits 10 (ds.reverse.map fun c => c.toNat - '0'.toNat)

theorem digitsValue_eq_value (ds : List Char) : digitsValue ds = value ds := by
  rw [value, Nat.ofDigits_eq_foldr, List.foldr_map, List.foldr_reverse, digitsValue]
  simp only [Nat.add_comm, Nat.cast_id]

/-- A text of digits, one at least, with or without a sign in front, and the integer that it writes. -/
inductive Writes : List Char → Int → Prop where
  | plain {ds : List Char} (hne : ds ≠ []) (hds : ∀ c ∈ ds, isDigit c = true) : Writes ds (value ds)
  | plus {ds : List Char} (hne : ds ≠ []) (hds : ∀ c ∈ ds, isDigit c = true) : Writes ('+' :: ds) (value ds)
  | minus {ds : List Char} (hne : ds ≠ []) (hds : ∀ c ∈ ds, isDigit c = true) : Writes ('-' :: ds) (-(value ds : Int))

/-- Taking the sign off leaves the digits. -/
theorem writes_iff {text : List Char} {n : Int} :
    Writes text n ↔ (splitSign text).2 ≠ [] ∧ (∀ c ∈ (splitSign text).2, isDigit c = true) ∧
      n = signed (splitSign text).1 (value (splitSign text).2) := by
  constructor
  · intro h
    cases h with
    | plain hne hds =>
      have hsplit : splitSign text = (false, text) :=
        splitSign_append false fun c hc => hds c (List.mem_of_mem_head? hc)
      rw [hsplit]
      exact ⟨hne, hds, rfl⟩
    | plus hne hds => exact ⟨hne, hds, rfl⟩
    | minus hne hds => exact ⟨hne, hds, rfl⟩
  · rintro ⟨hne, hds, rfl⟩
    revert hne hds
    fun_cases splitSign text with
    | case1 ds => exact fun hne hds => .minus hne hds
    | case2 ds => exact fun hne hds => .plus hne hds
    | case3 => exact fun hne hds => .plain hne hds

/-- A text is read as an integer exactly when it writes this integer. -/
theorem integer?_eq_some_iff {text : List Char} {n : Int} : integer? text = some n ↔ Writes text n := by
  unfold integer?
  simp only [writes_iff, Option.ite_none_right_eq_some, Option.some.injEq, digitsValue_eq_value,
    Bool.and_eq_true, Bool.not_eq_true', List.isEmpty_eq_false_iff, List.all_eq_true, and_assoc,
    eq_comm (a := n)]

/-- An integer numeral is a decimal numeral too, without a fraction and an exponent. -/
theorem decimal?_of_writes {text : List Char} {n : Int} (h : Writes text n) :
    decimal? text = some ((splitSign text).1, ⟨value (splitSign text).2, 0⟩) := by
  obtain ⟨hne, hds, -⟩ := writes_iff.1 h
  have hdigits : splitDigits (splitSign text).2 = ((splitSign text).2, []) := by
    have happend : splitDigits ((splitSign text).2 ++ []) = _ := splitDigits_append hds nofun
    rwa [List.append_nil] at happend
  unfold decimal?
  simp only [hdigits, splitFraction, exponent?, List.isEmpty_eq_false_iff.2 hne, List.append_nil,
    digitsValue_eq_value]
  rfl

end Numeral

/-- A whole number as a decimal is rounded like the integer. Zero is left out: as a double it has a sign. -/
theorem Decimal.toBinary64_whole (negative : Bool) {m : Nat} (h : m ≠ 0) :
    Decimal.toBinary64 negative ⟨m, 0⟩ = Binary64.ofInt (Numeral.signed negative m) := by
  have hsmall : ¬(0 : Int) < -((m.log2 : Int) + 401) := by omega
  have hsign : decide (Numeral.signed negative m < 0) = negative := by
    cases negative <;> simp [Numeral.signed, Nat.pos_of_ne_zero h]
  have habs : (Numeral.signed negative m).natAbs = m := by
    cases negative <;> simp [Numeral.signed]
  rw [Binary64.ofInt, hsign, habs, Decimal.toBinary64, if_neg h,
    if_neg (show ¬(400 : Int) < 0 by decide), if_neg hsmall, if_pos (Int.le_refl 0)]
  exact congrArg (Binary64.round negative · 1) (congrArg (· * Binary64.unitsPerOne) (Nat.mul_one m))

/-! ## Numbers -/

namespace Number

theorem fit?_eq_some_iff {n : Int} {k : Int64} : fit? n = some k ↔ k.toInt = n := by
  constructor
  · intro h
    by_cases hrange : InRange n
    · obtain ⟨k', hk', rfl⟩ := exists_fit? hrange
      cases hk'.symm.trans h
      rfl
    · cases (fit?_eq_none hrange).symm.trans h
  · rintro rfl
    exact fit?_toInt k

theorem inRange_toInt (k : Int64) : InRange k.toInt :=
  ⟨k.le_toInt, Int.le_of_lt_add_one k.toInt_lt⟩

/-- A text is read as an integer of 64 bits exactly when it writes its value. -/
theorem ofNumeral?_eq_int_iff {text : List Char} {k : Int64} :
    ofNumeral? text = some (.int k) ↔ Numeral.Writes text k.toInt := by
  have hinteger : (Numeral.integer? text).bind fit? = some k ↔ Numeral.Writes text k.toInt := by
    simp only [Option.bind_eq_some_iff, Numeral.integer?_eq_some_iff, fit?_eq_some_iff]
    exact ⟨fun ⟨n, hn, hk⟩ => hk ▸ hn, fun h => ⟨k.toInt, h, rfl⟩⟩
  rw [← hinteger]
  unfold ofNumeral?
  split
  · next n hn => rw [hn, Option.some.injEq, Option.some.injEq, Number.int.injEq]
  · next hnone =>
    rw [hnone]
    split
    · dsimp only
      split <;> simp
    · simp

/-- An integer numeral that does not fit is the nearest double, if that is finite. -/
theorem ofNumeral?_of_not_inRange {text : List Char} {n : Int} (h : Numeral.Writes text n) (hrange : ¬InRange n) :
    ofNumeral? text =
      if (Binary64.ofInt n).isFinite then some (.float (Binary64.ofInt n)) else none := by
  obtain ⟨-, -, hn⟩ := Numeral.writes_iff.1 h
  -- zero is in range, so the sign of the double is that of the integer
  have hne : Numeral.value (Numeral.splitSign text).2 ≠ 0 := by
    intro hzero
    apply hrange
    rw [hn, hzero]
    cases (Numeral.splitSign text).1 <;> decide
  have hdouble := Decimal.toBinary64_whole (Numeral.splitSign text).1 hne
  rw [← hn] at hdouble
  unfold ofNumeral?
  rw [Numeral.integer?_eq_some_iff.2 h, Option.bind_some, fit?_eq_none hrange, Numeral.decimal?_of_writes h]
  simp only [hdouble]

end Number

/-! ## Runs -/

namespace Token

/-- A digit stands in front, or a sign and a digit. -/
def StartsLikeNumber (run : List Char) : Prop :=
  ∃ d others, isDigit d = true ∧ (run = d :: others ∨ run = '+' :: d :: others ∨ run = '-' :: d :: others)

/-- What a run is taken for. -/
structure RunMeans (run : List Char) (outcome : Except ReadFault Atom) : Prop where
  nil : run = "nil".toList → outcome = .ok .nil
  yes : run = "true".toList → outcome = .ok (.bool true)
  no : run = "false".toList → outcome = .ok (.bool false)
  symbol : ¬StartsLikeNumber run → run ∉ ["nil".toList, "true".toList, "false".toList] →
    outcome = .ok (.symbol (String.ofList run))
  /-- An integer is what an integer numeral in range writes, and nothing else. -/
  int : ∀ n : Int, (∃ k : Int64, k.toInt = n ∧ outcome = .ok (.int k)) ↔ Numeral.Writes run n ∧ Number.InRange n
  /-- What starts like a number is a number or an error. -/
  number : StartsLikeNumber run → (∃ k, outcome = .ok (.int k)) ∨
    (∃ x : Binary64, x.isFinite = true ∧ outcome = .ok (.float x)) ∨
    outcome = .error (.invalidNumber (String.ofList run))
  /-- Integer numerals out of range do not wrap around. -/
  double : ∀ n : Int, Numeral.Writes run n → ¬Number.InRange n → outcome =
    if (Binary64.ofInt n).isFinite then .ok (.float (Binary64.ofInt n))
    else .error (.invalidNumber (String.ofList run))

/-- The test on the first characters says whether a run looks like a number. -/
theorem startsNumber_iff {run : List Char} : startsNumber run = true ↔ StartsLikeNumber run := by
  constructor
  · intro h
    cases run with
    | nil => cases h
    | cons c others =>
      rcases Bool.or_eq_true_iff.1 h with hdigit | hsign
      · exact ⟨c, others, hdigit, .inl rfl⟩
      · obtain ⟨hc, hrest⟩ := Bool.and_eq_true_iff.1 hsign
        cases others with
        | nil => cases hrest
        | cons d others =>
          rcases Bool.or_eq_true_iff.1 hc with hplus | hminus
          · exact ⟨d, others, hrest, .inr (.inl (by rw [eq_of_beq hplus]))⟩
          · exact ⟨d, others, hrest, .inr (.inr (by rw [eq_of_beq hminus]))⟩
  · rintro ⟨d, others, hd, rfl | rfl | rfl⟩ <;> simp [startsNumber, startsWithDigit, hd]

/-- What writes an integer looks like a number. -/
theorem startsLikeNumber_of_writes {run : List Char} {n : Int} (h : Numeral.Writes run n) : StartsLikeNumber run := by
  cases h with
  | plain hne hds | plus hne hds | minus hne hds =>
    obtain ⟨d, others, rfl⟩ := List.exists_cons_of_ne_nil hne
    exact ⟨d, others, hds d List.mem_cons_self, by simp⟩

theorem numberNamed_eq_int_iff {run : List Char} {k : Int64} :
    numberNamed (String.ofList run) = .ok (.int k) ↔ Numeral.Writes run k.toInt := by
  rw [← Number.ofNumeral?_eq_int_iff, numberNamed, String.toList_ofList]
  split <;> simp_all

/-- A run is an integer token exactly when it writes this integer. -/
theorem runNamed_eq_int_iff {run : List Char} {k : Int64} :
    runNamed run = .ok (.int k) ↔ Numeral.Writes run k.toInt := by
  unfold runNamed
  split
  · exact numberNamed_eq_int_iff
  · next hstarts =>
    -- neither a symbol nor a reserved word is an integer, and no numeral starts like a symbol
    refine iff_of_false ?_ fun h => hstarts (startsNumber_iff.2 (startsLikeNumber_of_writes h))
    unfold symbolNamed
    intro h
    split at h
    · cases h
    · split at h
      · cases h
      · split at h <;> cases h

/-- The lexer takes a run for what it means. -/
theorem runMeans_runNamed (run : List Char) : RunMeans run (runNamed run) where
  nil := by
    rintro rfl
    decide
  yes := by
    rintro rfl
    decide
  no := by
    rintro rfl
    decide
  symbol hstarts hword := by
    have hnumber : startsNumber run ≠ true := mt startsNumber_iff.1 hstarts
    have hname : ∀ word ∈ ["nil", "true", "false"], String.ofList run ≠ word := by
      rintro word hmem rfl
      exact hword (by simpa [String.toList_ofList] using List.mem_map_of_mem (f := String.toList) hmem)
    simp only [List.forall_mem_cons, ← beq_eq_false_iff_ne] at hname
    rw [runNamed, if_neg hnumber, symbolNamed, hname.1, hname.2.1, hname.2.2.1]
    rfl
  int n := by
    simp only [runNamed_eq_int_iff]
    constructor
    · rintro ⟨k, rfl, hwrites⟩
      exact ⟨hwrites, Number.inRange_toInt k⟩
    · rintro ⟨hwrites, hrange⟩
      obtain ⟨k, -, rfl⟩ := Number.exists_fit? hrange
      exact ⟨k, rfl, hwrites⟩
  number hstarts := by
    rw [runNamed, if_pos (startsNumber_iff.2 hstarts), numberNamed, String.toList_ofList]
    split
    · exact .inl ⟨_, rfl⟩
    · next x hx => exact .inr (.inl ⟨x, Number.isFinite_of_ofNumeral? hx, rfl⟩)
    · exact .inr (.inr rfl)
  double n hwrites hrange := by
    rw [runNamed, if_pos (startsNumber_iff.2 (startsLikeNumber_of_writes hwrites)), numberNamed,
      String.toList_ofList, Number.ofNumeral?_of_not_inRange hwrites hrange]
    by_cases hfinite : (Binary64.ofInt n).isFinite = true
    · rw [if_pos hfinite, if_pos hfinite]
    · rw [if_neg hfinite, if_neg hfinite]

end Token

/-! ## Runs in a text -/

theorem Text.splitLayout_layout_append {layout text : List Char} (h : Layout layout) (htext : Solid text) :
    splitLayout false (layout ++ text) = (layout, text) := by
  have hback : (splitLayout false (layout ++ text)).2 = text := by
    rw [splitLayout_layout h, splitLayout_of_solid htext]
  have happend := splitLayout_append false (layout ++ text)
  rw [hback] at happend
  exact Prod.ext (List.append_cancel_right happend) hback

namespace Cursor

/-- Behind layout the next token is what is scanned there, and a fault is reported there. -/
theorem next_of_layout {c : Cursor} {layout others : List Char} {first : Char}
    (hc : c.rest = layout ++ first :: others) (hlayout : Layout layout)
    (hfirst : isBlank first = false ∧ first ≠ ';') :
    let start := c.position.advance layout
    c.next = ((ReadError.locate start.location (Token.scan first others).outcome).map some,
      ⟨(Token.scan first others).rest, start.advance (Token.scan first others).lexeme, start.location⟩) := by
  have hsolid : Solid (first :: others) := by
    intro d hd
    cases hd
    exact hfirst
  have hskip : c.skipLayout = ⟨first :: others, c.position.advance layout, (c.position.advance layout).location⟩ := by
    rw [skipLayout, hc, splitLayout_layout_append hlayout hsolid]
  rw [next, hskip]
  rfl

/-- Behind layout and up to the end of the text or to a character that ends it, a run is taken off whole and is what
it means, or an error at its first character. Behind a colon it is the name of a keyword, whatever it looks like. -/
theorem next_run (c : Cursor) {layout run rest : List Char} (hlayout : Layout layout) (hne : run ≠ [])
    (hrun : ∀ d ∈ run, isTerminator d = false) (hrest : Terminated rest) :
    let start := c.position.advance layout
    (c.rest = layout ++ (run ++ rest) → ∃ outcome, Token.RunMeans run outcome ∧
      c.next = ((ReadError.locate start.location (outcome.map .atom)).map some,
        ⟨rest, start.advance run, start.location⟩)) ∧
    (c.rest = layout ++ ':' :: (run ++ rest) →
      c.next = (.ok (some (.atom (.keyword (String.ofList run)))),
        ⟨rest, start.advance (':' :: run), start.location⟩)) := by
  intro start
  constructor
  · intro hc
    refine ⟨Token.runNamed run, Token.runMeans_runNamed run, ?_⟩
    obtain ⟨first, others, rfl⟩ := List.exists_cons_of_ne_nil hne
    rw [List.cons_append] at hc
    have hnext := next_of_layout hc hlayout (Token.solid_of_ordinary (hrun first List.mem_cons_self))
    rwa [Token.scan_run hrun hrest] at hnext
  · intro hc
    have hnext := next_of_layout hc hlayout ⟨by decide, by decide⟩
    rwa [Token.scan_keyword hne hrun hrest] at hnext

/-- Behind a comment and a comma, the greatest integer with a sign and zeros in front, and the next integer after it,
which is a double. Behind a colon the same run is a name. -/
theorem next_run_greatest :
    let layout := "; 1\n,".toList
    let greatest := "+009223372036854775807".toList
    let beyond := "9223372036854775808".toList
    Layout layout ∧ (∀ d ∈ greatest, isTerminator d = false) ∧ (∀ d ∈ beyond, isTerminator d = false) ∧
      Terminated [')'] ∧
      (ofList (layout ++ (greatest ++ [')']))).next = (.ok (some (.atom (.int 9223372036854775807))),
        ⟨[')'], ⟨2, 24, 27⟩, ⟨2, 2⟩⟩) ∧
      (ofList (layout ++ (beyond ++ [')']))).next = (.ok (some (.atom (.float ⟨0x43E0000000000000⟩))),
        ⟨[')'], ⟨2, 21, 24⟩, ⟨2, 2⟩⟩) ∧
      (ofList (layout ++ ':' :: (beyond ++ [')']))).next = (.ok (some (.atom (.keyword "9223372036854775808"))),
        ⟨[')'], ⟨2, 22, 25⟩, ⟨2, 2⟩⟩) := by
  intro layout greatest beyond
  have hlayout : Layout layout := @Layout.comment [' ', '1'] [','] (by decide) (.blank (by decide) .nil)
  have hgreatest : ∀ d ∈ greatest, isTerminator d = false := ordinary_of_all (by decide +kernel)
  have hbeyond : ∀ d ∈ beyond, isTerminator d = false := ordinary_of_all (by decide +kernel)
  have hrest : Terminated [')'] := terminated_cons (by decide) []
  have hwrites : Numeral.Writes greatest 9223372036854775807 :=
    @Numeral.Writes.plus "009223372036854775807".toList (by decide) (List.all_eq_true.1 (by decide +kernel))
  have hwrites' : Numeral.Writes beyond 9223372036854775808 :=
    @Numeral.Writes.plain beyond (by decide) (List.all_eq_true.1 (by decide +kernel))
  refine ⟨hlayout, hgreatest, hbeyond, hrest, ?_, ?_, ?_⟩
  · obtain ⟨outcome, hmeans, hnext⟩ :=
      (next_run (ofList (layout ++ (greatest ++ [')']))) hlayout (by decide) hgreatest hrest).1 rfl
    obtain ⟨k, hk, rfl⟩ := (hmeans.int 9223372036854775807).2 ⟨hwrites, by decide⟩
    obtain rfl : k = 9223372036854775807 := Int64.toInt_inj.1 hk
    exact hnext
  · obtain ⟨outcome, hmeans, hnext⟩ :=
      (next_run (ofList (layout ++ (beyond ++ [')']))) hlayout (by decide) hbeyond hrest).1 rfl
    have hdouble : Binary64.ofInt 9223372036854775808 = ⟨0x43E0000000000000⟩ := by decide +kernel
    have houtcome := hmeans.double _ hwrites' (by decide)
    rw [hdouble, if_pos (by decide)] at houtcome
    rw [houtcome] at hnext
    exact hnext
  · exact (next_run (ofList (layout ++ ':' :: (beyond ++ [')']))) hlayout (by decide) hbeyond hrest).2 rfl

end Cursor

end SmallLisp
