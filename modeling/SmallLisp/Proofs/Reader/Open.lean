import SmallLisp.Proofs.Reader.Passage

/-!
# Collections that are open while a form is read

Reading a form goes token by token (`Steps`), until it is done or fails (`exists_steps_of_error`). On the way a
stack of open collections is kept. `Opened` says what such a stack stands for in the text: each frame was opened
by a bracket that stands there, at the place the frame remembers, and holds the whole forms that were read
behind this bracket (`Partial.Spans`). One token keeps this (`Opened.token`), and so do all of them
(`Opened.steps`).
-/

namespace SmallLisp

open Text (Location Terminated)

/-- Keys and values in turn. -/
def Value.alternating (entries : List (Value × Value)) : List Value :=
  entries.flatMap fun entry => [entry.1, entry.2]

/-- A bracket is scanned from its own text. -/
theorem Token.text_of_scan {c : Char} {text : List Char} {token : Token}
    (h : (scan c text).outcome = .ok token) (hbracket : ∀ a, token ≠ .atom a) :
    c :: text = token.text.toList ++ (scan c text).rest := by
  -- every scan but that of a bracket ends with `Token.atom`
  have hatom : ∀ {α : Type} (s : Scan α) (f : α → Atom),
      (s.map fun x => Token.atom (f x)).outcome ≠ .ok token := by
    intro α s f hs
    obtain ⟨lexeme, outcome, rest⟩ := s
    cases outcome with
    | error fault => cases hs
    | ok x => exact hbracket (f x) (Except.ok.inj hs).symm
  have hafter : (scanAfter c text).outcome = .ok token := h
  show c :: text = token.text.toList ++ (scanAfter c text).rest
  unfold scanAfter at hafter ⊢
  cases hlead : lead c text with
  | single token' =>
    rw [hlead] at hafter
    cases hafter
    unfold lead at hlead
    split at hlead
    case h_11 => split at hlead <;> cases hlead
    all_goals cases hlead
    all_goals rfl
  | dispatch =>
    rw [hlead] at hafter
    obtain rfl := eq_of_lead_dispatch hlead
    dsimp only at hafter ⊢
    unfold scanDispatch at hafter ⊢
    split at hafter
    · cases hafter
    · cases hafter
      rfl
    · cases hafter
  | quote =>
    rw [hlead] at hafter
    exact absurd hafter (hatom _ _)
  | symbol =>
    rw [hlead] at hafter
    exact absurd hafter (hatom _ _)
  | _ =>
    rw [hlead] at hafter
    exact absurd hafter (hatom _ id)

namespace Cursor

/-! ## Tokens and whole forms -/

theorem Stop.trans {c d e : Cursor} (hd : Stop c d) (he : Stop d e) : Stop c e := by
  induction hd with
  | here c => exact he
  | later hnext _ ih => exact .later hnext (ih he)

/-- Stops lie ahead: a part of the text was read on the way to them. -/
theorem Stop.leads {c d : Cursor} (h : Stop c d) : Leads c d := by
  induction h with
  | here c => exact .refl c
  | later hnext _ ih => exact (leads_of_next hnext).trans ih

/-- The cursor stops behind each form that is read. -/
theorem stop_of_readForm {stack : List Frame} {c after : Cursor} {v : Value}
    (h : c.readForm stack = (.ok (some v), after)) : Stop c after := by
  fun_induction readForm stack c with
  | case1 stack c e last hnext => cases h
  | case2 stack c last hnext => cases stack <;> cases h
  | case3 stack c token last hnext e hstep => cases h
  | case4 stack c token last hnext form hstep =>
    cases h
    exact .later hnext (.here after)
  | case5 stack c token last hnext inner hstep ih => exact .later hnext (ih h)

/-- Where a token is found there is text besides layout. -/
theorem skipLayout_rest_ne_nil_of_next {c after : Cursor} {token : Token}
    (h : c.next = (.ok (some token), after)) : c.skipLayout.rest ≠ [] := by
  obtain ⟨first, others, hrest, -⟩ := scan_of_next h
  rw [hrest]
  exact List.cons_ne_nil first others

theorem skipLayout_rest_ne_nil_of_form {c after : Cursor} {v : Value}
    (h : c.readForm [] = (.ok (some v), after)) : c.skipLayout.rest ≠ [] := by
  intro hnil
  have hnext : c.next = (.ok none, c.skipLayout) := by rw [next, takeToken, hnil]
  rw [readForm_of_next_none [] hnext] at h
  cases h

/-- Whole forms, read one after the other. -/
inductive Forms : Cursor → List Value → Cursor → Prop where
  | nil (c : Cursor) : Forms c [] c
  | cons {c middle last : Cursor} {v : Value} {forms : List Value}
      (hform : c.readForm [] = (.ok (some v), middle)) (h : Forms middle forms last) :
      Forms c (v :: forms) last

theorem Forms.concat {c middle last : Cursor} {v : Value} {forms : List Value} (h : Forms c forms middle)
    (hform : middle.readForm [] = (.ok (some v), last)) : Forms c (forms ++ [v]) last := by
  induction h with
  | nil c => exact .cons hform (.nil last)
  | cons hfirst _ ih => exact .cons hfirst (ih hform)

theorem Forms.stop {c last : Cursor} {forms : List Value} (h : Forms c forms last) : Stop c last := by
  induction h with
  | nil c => exact .here c
  | cons hform _ ih => exact (stop_of_readForm hform).trans ih

/-! ## Steps -/

/-- Some tokens are read, and after each of them a collection is open. -/
inductive Steps : List Frame → Cursor → List Frame → Cursor → Prop where
  | refl (stack : List Frame) (c : Cursor) : Steps stack c stack c
  | token {stack inner final : List Frame} {c after last : Cursor} {token : Token}
      (hnext : c.next = (.ok (some token), after))
      (hstep : Progress.step stack token after.tokenStart = .ok (.reading inner))
      (h : Steps inner after final last) : Steps stack c final last

/-- Why reading fails at a cursor, with the given collections open. -/
inductive Fails (stack : List Frame) (c : Cursor) (e : ReadError) : Prop where
  /-- The text there is no token. -/
  | refused {after : Cursor} (hnext : c.next = (.error e, after))
  /-- The text ends, though a collection is open. -/
  | ended {after : Cursor} (hnext : c.next = (.ok none, after)) (hfinish : Progress.finish stack = .error e)
  /-- The next token cannot stand there. -/
  | misplaced {after : Cursor} {token : Token} (hnext : c.next = (.ok (some token), after))
      (hstep : Progress.step stack token after.tokenStart = .error e)

/-- Reading goes on from where some tokens were taken, with the collections that are open there. -/
theorem readForm_of_steps {stack final : List Frame} {c last : Cursor} (h : Steps stack c final last) :
    c.readForm stack = last.readForm final := by
  induction h with
  | refl stack c => rfl
  | token hnext hstep _ ih => rw [readForm_of_next_some _ hnext, hstep, ← ih]

/-- A read that fails takes some tokens first. -/
theorem exists_steps_of_error {stack : List Frame} {c after : Cursor} {e : ReadError}
    (h : c.readForm stack = (.error e, after)) :
    ∃ final last, Steps stack c final last ∧ Fails final last e := by
  fun_induction readForm stack c with
  | case1 stack c e' last hnext =>
    cases h
    exact ⟨stack, c, .refl stack c, .refused hnext⟩
  | case2 stack c last hnext =>
    exact ⟨stack, c, .refl stack c, .ended hnext (Prod.mk.inj h).1⟩
  | case3 stack c token last hnext e' hstep =>
    cases h
    exact ⟨stack, c, .refl stack c, .misplaced hnext hstep⟩
  | case4 stack c token last hnext form hstep => cases h
  | case5 stack c token last hnext inner hstep ih =>
    obtain ⟨final, stop, hsteps, hfails⟩ := ih h
    exact ⟨final, stop, .token hnext hstep hsteps, hfails⟩

theorem Steps.stop {stack final : List Frame} {c last : Cursor} (h : Steps stack c final last) :
    Stop c last := by
  induction h with
  | refl stack c => exact .here c
  | token hnext _ _ ih => exact .later hnext ih

/-- The same tokens are read before more text, unless that makes the last run longer. -/
theorem Steps.extend {stack final : List Frame} {c last : Cursor} (h : Steps stack c final last)
    (more : List Char) (hmore : last.rest = [] → Terminated more) :
    Steps stack (c.extend more) final (last.extend more) := by
  induction h with
  | refl stack c => exact .refl stack _
  | @token stack inner final c after last token hnext hstep h ih =>
    have hafter : after.rest = [] → Terminated more := fun hnil => hmore (h.stop.leads.rest_eq_nil hnil)
    exact .token (next_extend_of_token hnext more hafter) hstep (ih hmore)

end Cursor

/-! ## What a stack stands for -/

/-- Behind the opening bracket the whole forms were read that an open collection holds. A key that waits for
its value began where the collection remembers it. -/
def Partial.Spans (inside c : Cursor) : Partial → Prop
  | .list items => Cursor.Forms inside items.reverse c
  | .vector items => Cursor.Forms inside items.reverse c
  | .set items => Cursor.Forms inside items.reverse c
  | .map entries none =>
    ∃ pairs, Value.ofEntries pairs = .map entries ∧ Cursor.Forms inside (Value.alternating pairs) c
  | .map entries (some (key, start)) =>
    ∃ pairs middle, Value.ofEntries pairs = .map entries ∧
      Cursor.Forms inside (Value.alternating pairs) middle ∧
      start = middle.skipLayout.tokenStart ∧ middle.readForm [] = (.ok (some key), c)

theorem Value.alternating_concat (pairs : List (Value × Value)) (key v : Value) :
    Value.alternating (pairs ++ [(key, v)]) = Value.alternating pairs ++ [key] ++ [v] := by
  simp [alternating]

/-- A collection that was just opened holds no forms. -/
theorem Partial.spans_empty (shape : Shape) (c : Cursor) : (Partial.empty shape).Spans c c := by
  cases shape with
  | map => exact ⟨[], rfl, .nil c⟩
  | _ => exact .nil c

/-- What an open collection spans is a row of whole forms, with a key that waits as the last. -/
theorem Partial.Spans.forms {inside c : Cursor} {content : Partial} (h : content.Spans inside c) :
    ∃ forms, Cursor.Forms inside forms c := by
  cases content with
  | map entries pending =>
    cases pending with
    | none =>
      obtain ⟨pairs, -, hforms⟩ := h
      exact ⟨_, hforms⟩
    | some waiting =>
      obtain ⟨pairs, middle, -, hforms, -, hkey⟩ := h
      exact ⟨_, hforms.concat hkey⟩
  | _ => exact ⟨_, h⟩

/-- An open collection takes in a form that was read. -/
theorem Frame.spans_add {frame frame' : Frame} {inside c after : Cursor} {v : Value}
    (h : frame.content.Spans inside c) (hform : c.readForm [] = (.ok (some v), after))
    (hadd : frame.add v c.skipLayout.tokenStart = .ok frame') :
    frame'.opened = frame.opened ∧ frame'.shape = frame.shape ∧ frame'.content.Spans inside after := by
  obtain ⟨opened, content⟩ := frame
  cases content
  case map entries pending =>
    cases pending with
    | none =>
      cases hadd
      obtain ⟨pairs, hentries, hforms⟩ := h
      exact ⟨rfl, rfl, pairs, c, hentries, hforms, rfl, hform⟩
    | some waiting =>
      obtain ⟨key, start⟩ := waiting
      obtain ⟨pairs, middle, hentries, hforms, -, hkey⟩ := h
      simp only [Frame.add] at hadd
      split at hadd
      · cases hadd
      · -- the key that waited and its value become the last entry
        cases hadd
        refine ⟨rfl, rfl, pairs ++ [(key, v)], Value.ofEntries_concat hentries key v, ?_⟩
        rw [Value.alternating_concat]
        exact (hforms.concat hkey).concat hform
  -- the three kinds of sequence hold their elements newest first
  all_goals
    cases hadd
    refine ⟨rfl, rfl, ?_⟩
    simpa only [Partial.Spans, List.reverse_cons] using Cursor.Forms.concat h hform

namespace Cursor

/-- A stack of open collections at a cursor, while a form is read that begins at `start`. -/
inductive Opened (start : Cursor) : List Frame → Cursor → Prop where
  | nil : Opened start [] start
  | cons {outer : List Frame} {frame : Frame} {opener inside c : Cursor} (houter : Opened start outer opener)
      (hopen : opener.next = (.ok (some (.opening frame.shape)), inside))
      (hplace : frame.opened = inside.tokenStart)
      (hresume : ∀ stack, opener.readForm stack = c.readForm (frame :: stack))
      (hspans : frame.content.Spans inside c) : Opened start (frame :: outer) c

/-- A bracket stands in the text as it is written. -/
theorem text_of_next {c after : Cursor} {token : Token} (h : c.next = (.ok (some token), after))
    (hbracket : ∀ a, token ≠ .atom a) : c.skipLayout.rest = token.text.toList ++ after.rest := by
  obtain ⟨first, others, hrest, hscan, hafter, -⟩ := scan_of_next h
  rw [hrest, hafter]
  exact Token.text_of_scan hscan hbracket

/-- A token is located at the end of the layout before it. -/
theorem tokenStart_of_next {c after : Cursor} {result : Except ReadError (Option Token)}
    (h : c.next = (result, after)) : after.tokenStart = c.skipLayout.tokenStart := by
  unfold next takeToken at h
  split at h
  · rw [← (Prod.mk.inj h).2]
  · rw [← (Prod.mk.inj h).2]

/-- A form that was read wherever it may stand goes to the innermost collection. -/
theorem Opened.deliver {start c after : Cursor} {stack inner : List Frame} {v : Value}
    (h : Opened start stack c)
    (hform : ∀ stack, c.readForm stack =
      after.resume (Progress.deliver v c.skipLayout.tokenStart stack))
    (hdeliver : Progress.deliver v c.skipLayout.tokenStart stack = .ok (.reading inner)) :
    Opened start inner after := by
  cases h with
  | nil => cases hdeliver
  | @cons outer frame opener inside c houter hopen hplace hresume hspans =>
    simp only [Progress.deliver] at hdeliver
    split at hdeliver
    · next frame' hadd =>
      cases hdeliver
      obtain ⟨hopened, hshape, hspans'⟩ := Frame.spans_add hspans (hform []) hadd
      refine .cons houter (by rw [hshape]; exact hopen) (hopened.trans hplace) ?_ hspans'
      intro stack
      rw [hresume, hform, Progress.deliver, hadd]
      rfl
    · cases hdeliver

/-- One more token is read. -/
theorem Opened.token {start c after : Cursor} {stack inner : List Frame} {token : Token}
    (h : Opened start stack c) (hnext : c.next = (.ok (some token), after))
    (hstep : Progress.step stack token after.tokenStart = .ok (.reading inner)) :
    Opened start inner after := by
  have hread : ∀ stack, c.readForm stack = after.resume (Progress.step stack token after.tokenStart) := by
    intro stack
    rw [readForm_of_next_some stack hnext]
    rfl
  have hstart := tokenStart_of_next hnext
  cases token with
  | opening shape =>
    cases hstep
    have hshape : (Frame.mk after.tokenStart (.empty shape)).shape = shape := by cases shape <;> rfl
    refine .cons h (by rw [hshape]; exact hnext) rfl ?_ (Partial.spans_empty shape after)
    intro stack
    rw [hread]
    rfl
  | atom a =>
    rw [hstart] at hread hstep
    exact h.deliver hread hstep
  | closing closer =>
    cases h with
    | nil => cases hstep
    | @cons outer frame opener inside c houter hopen hplace hresume hspans =>
      -- the collection is a form that began at its bracket, and goes to the collection around it
      simp only [Progress.step, Progress.close] at hstep
      split at hstep
      · next hcloser =>
        split at hstep
        · next v hfinish =>
          have hopened : frame.opened = opener.skipLayout.tokenStart :=
            hplace.trans (tokenStart_of_next hopen)
          rw [hopened] at hstep
          refine houter.deliver ?_ hstep
          intro stack
          rw [hresume, hread]
          simp only [Progress.step, Progress.close, if_pos hcloser, hfinish, hopened]
        · cases hstep
      · cases hstep

/-- Whatever tokens are read, the stack stands for collections that are open in the text. -/
theorem Opened.steps {start c last : Cursor} {stack final : List Frame} (h : Opened start stack c)
    (hsteps : Steps stack c final last) : Opened start final last := by
  induction hsteps with
  | refl stack c => exact h
  | token hnext hstep _ ih => exact ih (h.token hnext hstep)

theorem Opened.stop {start c : Cursor} {stack : List Frame} (h : Opened start stack c) : Stop start c := by
  induction h with
  | nil => exact .here start
  | cons _ hopen _ _ hspans ih =>
    obtain ⟨forms, hforms⟩ := hspans.forms
    exact ih.trans (.later hopen hforms.stop)

/-! ## The innermost collection -/

/-- The innermost collection that is open at `stop`: its bracket stands behind the layout at `opener`, in the
form that begins at `start`, and the whole forms it holds so far lie between the bracket and `stop`. -/
structure Within (start opener : Cursor) (shape : Shape) (forms : List Value) (stop : Cursor) : Prop where
  reached : Stop start opener
  holds : ∃ inside : Cursor, opener.skipLayout.rest = shape.text.toList ++ inside.rest ∧
    opener.next = (.ok (some (.opening shape)), inside) ∧ Forms inside forms stop

/-- Forms behind an opening bracket that is open from the start are within a collection. -/
theorem Opened.within {start opener inside stop : Cursor} {outer : List Frame} {shape : Shape}
    {forms : List Value} (h : Opened start outer opener)
    (hopen : opener.next = (.ok (some (.opening shape)), inside)) (hforms : Forms inside forms stop) :
    Within start opener shape forms stop :=
  ⟨h.stop, inside, text_of_next hopen (fun _ => Token.noConfusion), hopen, hforms⟩

end Cursor

end SmallLisp
