import SmallLisp.Proofs.Reader.Trailer

/-!
# Reading goes on and ends

A loop is told by one round, which gives the next state or the result. If an invariant holds and every round makes a
number smaller, the loop stops, and that number bounds its rounds (`Loop.stops_of_variant`). The rounds of reading a
form take one token each (`readForm_stops`), and those of reading a text one form each (`readAll_stops`). A read that
finds something moves on by a byte at least (`offset_read_lt`); it finds nothing exactly where only layout is left
(`read_eq_none_iff`), and then it passes all of it (`offset_read_of_none`).
-/

namespace SmallLisp

/-! ## Loops that stop -/

namespace Loop

variable {σ ρ : Type} {round : σ → σ ⊕ ρ}

/-- A loop makes the given number of rounds and stops with a result. -/
inductive Stops (round : σ → σ ⊕ ρ) : σ → Nat → ρ → Prop where
  | last {s : σ} {r : ρ} (h : round s = .inr r) : Stops round s 1 r
  | again {s next : σ} {n : Nat} {r : ρ} (h : round s = .inl next) (hnext : Stops round next n r) :
      Stops round s (n + 1) r

/-- A loop comes to a state after some rounds. -/
inductive Arrives (round : σ → σ ⊕ ρ) (start : σ) : σ → Prop where
  | start : Arrives round start start
  | again {s next : σ} (h : Arrives round start s) (hround : round s = .inl next) : Arrives round start next

/-- What holds at the start and is kept by every round holds wherever the loop comes to. -/
theorem Arrives.invariant {Inv : σ → Prop} {start s : σ} (h : Arrives round start s) (hstart : Inv start)
    (hkept : ∀ s next, Inv s → round s = .inl next → Inv next) : Inv s := by
  induction h with
  | start => exact hstart
  | again _ hround ih => exact hkept _ _ ih hround

/-- If every round keeps an invariant and the result to come, and makes a number smaller, the loop stops with this
result, and the number bounds its rounds. -/
theorem stops_of_variant (Inv : σ → Prop) (size : σ → Nat) (result : σ → ρ)
    (hlast : ∀ s r, Inv s → round s = .inr r → r = result s)
    (hagain : ∀ s next, Inv s → round s = .inl next → Inv next ∧ size next < size s ∧ result next = result s)
    (s : σ) (hs : Inv s) : ∃ n ≤ size s + 1, Stops round s n (result s) := by
  induction hsize : size s using Nat.strongRecOn generalizing s with
  | ind bound ih =>
    subst hsize
    cases hround : round s with
    | inr r =>
      rw [← hlast s r hs hround]
      exact ⟨1, by omega, .last hround⟩
    | inl next =>
      obtain ⟨hnext, hlt, hresult⟩ := hagain s next hs hround
      obtain ⟨n, hn, hstops⟩ := ih (size next) hlt next hnext rfl
      rw [hresult] at hstops
      exact ⟨n + 1, by omega, .again hround hstops⟩

end Loop

namespace Text

/-! ## Bytes -/

/-- The number of bytes of a text in UTF-8. -/
def byteSize (text : List Char) : Nat :=
  (String.ofList text).utf8ByteSize

theorem byteSize_cons (c : Char) (rest : List Char) : byteSize (c :: rest) = c.utf8Size + byteSize rest := by
  rw [byteSize, String.ofList_cons, String.utf8ByteSize_append, String.utf8ByteSize_singleton, byteSize]

theorem byteSize_append (before rest : List Char) :
    byteSize (before ++ rest) = byteSize before + byteSize rest := by
  rw [byteSize, String.ofList_append, String.utf8ByteSize_append, byteSize, byteSize]

theorem byteSize_pos {text : List Char} (h : text ≠ []) : 0 < byteSize text := by
  obtain ⟨c, rest, rfl⟩ := List.exists_cons_of_ne_nil h
  rw [byteSize_cons]
  exact Nat.add_pos_left c.utf8Size_pos _

/-! ## Texts without a form -/

/-- Blanks and comments, of which the last may be ended by the text instead of a newline. -/
def IsLayout (text : List Char) : Prop :=
  ∃ layout trailer, text = layout ++ trailer ∧ Layout layout ∧ Trailer trailer

theorem IsLayout.blank {c : Char} {rest : List Char} (hc : isBlank c = true) (h : IsLayout rest) :
    IsLayout (c :: rest) := by
  obtain ⟨layout, trailer, rfl, hlayout, htrailer⟩ := h
  exact ⟨c :: layout, trailer, rfl, .blank hc hlayout, htrailer⟩

/-- A comment up to its newline in front of layout makes layout. -/
theorem IsLayout.comment {body rest : List Char} (hbody : '\n' ∉ body) (h : IsLayout rest) :
    IsLayout (';' :: (body ++ '\n' :: rest)) := by
  obtain ⟨layout, trailer, rfl, hlayout, htrailer⟩ := h
  exact ⟨';' :: (body ++ '\n' :: layout), trailer, by simp, .comment hbody hlayout, htrailer⟩

/-- A text of which nothing is left behind the layout is layout. `body` is what was passed of a comment. -/
theorem isLayout_of_splitLayout {text : List Char} :
    ((splitLayout false text).2 = [] → IsLayout text) ∧
      ∀ body, '\n' ∉ body → (splitLayout true text).2 = [] → IsLayout (';' :: (body ++ text)) := by
  -- the two statements are proved together, since a comment ends in text outside of it
  induction text with
  | nil =>
    refine ⟨fun _ => ⟨[], [], rfl, .nil, .nil⟩, ?_⟩
    intro body hbody _
    exact ⟨[], ';' :: body, by simp, .nil, .comment hbody⟩
  | cons c rest ih =>
    obtain ⟨houtside, hinside⟩ := ih
    constructor
    · intro h
      by_cases hblank : isBlank c = true
      · exact (houtside (by simpa [splitLayout, hblank] using h)).blank hblank
      · by_cases hcomment : c = ';'
        · subst hcomment
          exact hinside [] (by simp) h
        · simp [splitLayout, hblank, hcomment] at h
    · intro body hbody h
      by_cases hc : c = '\n'
      · subst hc
        exact (houtside (by simpa [splitLayout] using h)).comment hbody
      · have hgrown := hinside (body ++ [c]) (by simp [hbody, Ne.symm hc])
          (by simpa [splitLayout, bne_iff_ne.2 hc] using h)
        simpa using hgrown

/-- A trailer is layout, and no more than that. -/
theorem splitLayout_trailer {trailer : List Char} (h : Trailer trailer) :
    (splitLayout false trailer).2 = [] := by
  have hpassed : (splitTrailer false trailer).2 = [] := by
    have hsplit := splitTrailer_of_trailer h (by simp [AtLineEnd] : AtLineEnd [])
    rw [List.append_nil] at hsplit
    rw [hsplit]
  rw [← splitLayout_splitTrailer, hpassed]
  rfl

/-- All of a text is skipped as layout exactly when it is layout. -/
theorem splitLayout_eq_nil_iff {text : List Char} : (splitLayout false text).2 = [] ↔ IsLayout text := by
  refine ⟨isLayout_of_splitLayout.1, ?_⟩
  rintro ⟨layout, trailer, rfl, hlayout, htrailer⟩
  rw [splitLayout_layout hlayout, splitLayout_trailer htrailer]

end Text

namespace Cursor

/-! ## Rounds of reading -/

/-- One round of reading a form: a token is taken, and the open collections make something of it. -/
def readRound (s : List Frame × Cursor) :
    (List Frame × Cursor) ⊕ (Except ReadError (Option Value) × Cursor) :=
  match s.2.next with
  | (.error e, after) => .inr (.error e, after)
  | (.ok none, after) => .inr (Progress.finish s.1, after)
  | (.ok (some token), after) =>
    match Progress.step s.1 token after.tokenStart with
    | .error e => .inr (.error e, after)
    | .ok (.done form) => .inr (.ok (some form), after)
    | .ok (.reading stack) => .inl (stack, after)

/-- A form is read, or refused, after as many tokens as there are characters, and one more round at most. -/
theorem readForm_stops (stack : List Frame) (c : Cursor) :
    ∃ n ≤ c.rest.length + 1, Loop.Stops readRound (stack, c) n (c.readForm stack) := by
  refine Loop.stops_of_variant (fun _ => True) (fun s : List Frame × Cursor => s.2.rest.length)
    (fun s => s.2.readForm s.1) ?_ ?_ (stack, c) trivial
  -- a last round gives the result of the whole read
  · rintro ⟨stack, c⟩ r - hround
    unfold readRound at hround
    split at hround
    · next hnext => rw [← Sum.inr.inj hround, readForm_of_next_error stack hnext]
    · next hnext => rw [← Sum.inr.inj hround, readForm_of_next_none stack hnext]
    · next hnext =>
      rw [readForm_of_next_some stack hnext]
      split at hround <;> simp_all
  -- any other round takes a token and leaves the result as it was
  · rintro ⟨stack, c⟩ ⟨inner, after⟩ - hround
    unfold readRound at hround
    split at hround
    · cases hround
    · cases hround
    · next token last hnext =>
      split at hround
      · cases hround
      · cases hround
      · next hstep =>
        obtain ⟨rfl, rfl⟩ := Prod.mk.inj (Sum.inl.inj hround)
        refine ⟨trivial, length_rest_of_next_some hnext, ?_⟩
        dsimp only at hstep ⊢
        rw [readForm_of_next_some stack hnext, hstep]

/-- One round of reading a text: a form is read and kept behind those before it. -/
def readAllRound (s : List Value × Cursor) : (List Value × Cursor) ⊕ Except ReadError (List Value) :=
  match s.2.read with
  | (.error e, _) => .inr (.error e)
  | (.ok none, _) => .inr (.ok s.1)
  | (.ok (some form), after) => .inl (s.1 ++ [form], after)

/-- The forms of a text are read, or one of them is refused, after as many rounds as there are characters, and one
more at most. -/
theorem readAll_stops (c : Cursor) :
    ∃ n ≤ c.rest.length + 1, Loop.Stops readAllRound ([], c) n c.readAll := by
  -- the loop carries the forms read so far, which stand before those that are still to come
  have hresult : c.readAll = c.readAll.map ([] ++ ·) := by cases c.readAll <;> rfl
  rw [hresult]
  refine Loop.stops_of_variant (fun _ => True) (fun s : List Value × Cursor => s.2.rest.length)
    (fun s => s.2.readAll.map (s.1 ++ ·)) ?_ ?_ ([], c) trivial
  · rintro ⟨forms, c⟩ r - hround
    unfold readAllRound at hround
    split at hround
    · next hread => rw [← Sum.inr.inj hround, readAll_of_read_error hread]; rfl
    · next hread => rw [← Sum.inr.inj hround, readAll_of_read_none hread]; simp [Except.map]
    · cases hround
  · rintro ⟨forms, c⟩ ⟨more, after⟩ - hround
    unfold readAllRound at hround
    split at hround
    · cases hround
    · cases hround
    · next form last hread =>
      obtain ⟨rfl, rfl⟩ := Prod.mk.inj (Sum.inl.inj hround)
      refine ⟨trivial, length_rest_of_read_some hread, ?_⟩
      dsimp only
      rw [readAll_of_read_some hread]
      cases last.readAll <;> simp [Except.map]

/-! ## How far a read comes -/

/-- Wherever characters were passed, so were bytes. -/
theorem Leads.offset_lt {c d : Cursor} (h : Leads c d) (hlt : d.rest.length < c.rest.length) :
    c.position.offset < d.position.offset := by
  obtain ⟨passed, hrest, hposition⟩ := h
  have hpassed : passed ≠ [] := by
    rintro rfl
    rw [hrest] at hlt
    exact absurd hlt (Nat.lt_irrefl _)
  rw [hposition, Text.Position.offset_advance]
  exact Nat.lt_add_of_pos_right (Text.byteSize_pos hpassed)

/-- A read that finds a form or an error moves on by a byte at least. -/
theorem offset_read_lt {c : Cursor} (h : c.read.1 ≠ .ok none) :
    c.position.offset < c.read.2.position.offset :=
  c.leads_read.offset_lt (c.length_rest_read_lt h)

/-- No form is found exactly in layout. -/
theorem read_eq_none_iff (c : Cursor) : c.read.1 = .ok none ↔ Text.IsLayout c.rest := by
  rw [← Text.splitLayout_eq_nil_iff]
  refine ⟨skipLayout_rest_of_read_none, fun h => ?_⟩
  rw [read_of_layout h]

/-- A read that finds nothing has passed the whole text. -/
theorem offset_read_of_none {text : String} {c : Cursor} (hc : Leads (ofString text) c)
    (h : c.read.1 = .ok none) : c.read.2.position.offset = text.utf8ByteSize := by
  obtain ⟨passed, hrest, hposition⟩ := hc.trans c.leads_read
  rw [rest_read_of_none h, List.append_nil] at hrest
  rw [hposition, Text.Position.offset_advance, ← hrest]
  show 0 + (String.ofList text.toList).utf8ByteSize = _
  rw [String.ofList_toList, Nat.zero_add]

end Cursor

end SmallLisp
