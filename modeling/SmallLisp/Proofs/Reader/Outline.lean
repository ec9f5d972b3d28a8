import SmallLisp.Reader.Basic

/-!
# Reading does not depend on where the text stands

Positions go into errors and nowhere else. The outline of a frame forgets where things began; reading the
same text with stacks of one outline gives the same form or the same fault and leaves the same text
unread, whatever the positions are (`readForm_congr`, `read_congr`).
-/

namespace SmallLisp

open Text (Location)

/-! ## Outlines -/

/-- A collection without the place of a key that waits for its value. -/
def Partial.outline : Partial → Partial
  | .map entries (some (key, _)) => .map entries (some (key, ⟨0, 0⟩))
  | content => content

/-- A frame without the places it remembers. -/
def Frame.outline (f : Frame) : Frame :=
  ⟨⟨0, 0⟩, f.content.outline⟩

/-- The progress of a form without the places that open frames remember. -/
def Progress.outline : Progress → Progress
  | .done form => .done form
  | .reading stack => .reading (stack.map Frame.outline)

/-- A result with the fault of its error alone. -/
def ReadError.faultOf {α : Type} (r : Except ReadError α) : Except ReadFault α :=
  r.mapError ReadError.fault

/-- The outcome of a step without any place. -/
def Progress.outcome (r : Except ReadError Progress) : Except ReadFault Progress :=
  ReadError.faultOf (r.map Progress.outline)

@[simp]
theorem ReadError.faultOf_ok {α : Type} (a : α) : ReadError.faultOf (.ok a) = .ok a := rfl

@[simp]
theorem ReadError.faultOf_error {α : Type} (e : ReadError) :
    ReadError.faultOf (.error e : Except ReadError α) = .error e.fault := rfl

@[simp]
theorem ReadError.faultOf_map {α β : Type} (f : α → β) (r : Except ReadError α) :
    ReadError.faultOf (r.map f) = (ReadError.faultOf r).map f := by
  cases r <;> rfl

@[simp]
theorem ReadError.faultOf_eq_ok {α : Type} {r : Except ReadError α} {a : α} :
    ReadError.faultOf r = .ok a ↔ r = .ok a := by
  cases r <;> simp

/-- A result whose fault is known is an error with that fault. -/
theorem ReadError.exists_of_faultOf_eq_error {α : Type} {r : Except ReadError α} {fault : ReadFault}
    (h : ReadError.faultOf r = .error fault) : ∃ e, r = .error e ∧ e.fault = fault := by
  cases r with
  | error e => exact ⟨e, rfl, Except.error.inj h⟩
  | ok a => cases h

@[simp]
theorem ReadError.faultOf_locate {α : Type} (place : Location) (r : Except ReadFault α) :
    ReadError.faultOf (ReadError.locate place r) = r := by
  cases r <;> rfl

namespace Frame

@[simp]
theorem outline_outline (f : Frame) : f.outline.outline = f.outline := by
  obtain ⟨opened, content⟩ := f
  cases content with
  | map entries pending => cases pending <;> rfl
  | _ => rfl

@[simp]
theorem shape_outline (f : Frame) : f.outline.shape = f.shape := by
  obtain ⟨opened, content⟩ := f
  cases content with
  | map entries pending => cases pending <;> rfl
  | _ => rfl

/-- Adding a value to a frame adds it to the outline. -/
theorem add_outline (f : Frame) (v : Value) (start start' : Location) :
    ReadError.faultOf ((f.add v start).map outline) =
      ReadError.faultOf ((f.outline.add v start').map outline) := by
  obtain ⟨opened, content⟩ := f
  cases content with
  | map entries pending =>
    cases pending with
    | none => rfl
    | some waiting =>
      obtain ⟨key, place⟩ := waiting
      simp only [add, outline, Partial.outline]
      split <;> rfl
  | _ => rfl

/-- A collection is closed like its outline, or refused with the same fault. -/
theorem finish_outline (f : Frame) (place place' : Location) :
    ReadError.faultOf (f.finish place) = ReadError.faultOf (f.outline.finish place') := by
  obtain ⟨opened, content⟩ := f
  cases content with
  | map entries pending => cases pending <;> rfl
  | _ => rfl

end Frame

namespace Progress

/-! ## One token -/

/-- A form goes into the innermost collection of a stack as into that of the outline. -/
theorem deliver_outline (v : Value) (start start' : Location) (stack : List Frame) :
    outcome (deliver v start stack) = outcome (deliver v start' (stack.map Frame.outline)) := by
  cases stack with
  | nil => rfl
  | cons frame outer =>
    have hadd := frame.add_outline v start start'
    simp only [List.map_cons, deliver]
    cases h : frame.add v start <;> cases h' : frame.outline.add v start' <;>
      simp_all [outcome, outline, Except.map, Function.comp_def]

/-- A closing bracket closes or is refused alike. -/
theorem close_outline (closer : Closer) (place place' : Location) (stack : List Frame) :
    outcome (close closer place stack) = outcome (close closer place' (stack.map Frame.outline)) := by
  cases stack with
  | nil => rfl
  | cons frame outer =>
    have hfinish := frame.finish_outline place place'
    simp only [List.map_cons, close, Frame.shape_outline]
    split
    · -- both frames are finished alike, and the value goes to outer frames of one outline
      cases h : frame.finish place <;> cases h' : frame.outline.finish place' <;>
        simp only [h, h', ReadError.faultOf_ok, ReadError.faultOf_error, reduceCtorEq,
          Except.ok.injEq, Except.error.injEq] at hfinish
      · simp [outcome, Except.map, hfinish]
      · rw [hfinish]
        exact deliver_outline _ _ _ outer
    · rfl

/-- A token makes the same of stacks of one outline, wherever it begins. -/
theorem step_outline (stack : List Frame) (token : Token) (place place' : Location) :
    outcome (step stack token place) = outcome (step (stack.map Frame.outline) token place') := by
  cases token with
  | opening shape =>
    simp only [step, outcome, Except.map, outline, List.map_cons, List.map_map,
      Function.comp_def, Frame.outline_outline]
    rfl
  | closing closer => exact close_outline closer place place' stack
  | atom a => exact deliver_outline a.toValue place place' stack

/-- A token makes the same of any two stacks of one outline. -/
theorem step_congr {stack stack' : List Frame} (h : stack.map Frame.outline = stack'.map Frame.outline)
    (token : Token) (place place' : Location) :
    outcome (step stack token place) = outcome (step stack' token place') := by
  rw [step_outline stack token place place', h, ← step_outline stack' token place' place']

/-- At the end of the text stacks of one outline are incomplete with the same fault. -/
theorem finish_congr {stack stack' : List Frame}
    (h : stack.map Frame.outline = stack'.map Frame.outline) :
    ReadError.faultOf (finish stack) = ReadError.faultOf (finish stack') := by
  cases stack with
  | nil =>
    obtain rfl := List.map_eq_nil_iff.1 h.symm
    rfl
  | cons frame outer =>
    cases stack' with
    | nil => cases h
    | cons frame' outer' =>
      have hframe : frame.outline = frame'.outline := (List.cons.inj h).1
      have hshape : frame.shape = frame'.shape := by
        rw [← Frame.shape_outline frame, hframe, Frame.shape_outline]
      simp only [finish, hshape, ReadError.faultOf_error]

/-- When two steps have one outcome and the first one fails, the second one fails with the same fault. -/
theorem exists_of_outcome_error {r r' : Except ReadError Progress} {e : ReadError}
    (h : outcome r = outcome r') (hr : r = .error e) : ∃ e', r' = .error e' ∧ e'.fault = e.fault := by
  subst hr
  cases r' with
  | error e' => exact ⟨e', rfl, (Except.error.inj h).symm⟩
  | ok progress => cases h

/-- When two steps have one outcome and the first one ends with a form, the second one ends with it too. -/
theorem eq_done_of_outcome {r r' : Except ReadError Progress} {form : Value}
    (h : outcome r = outcome r') (hr : r = .ok (.done form)) : r' = .ok (.done form) := by
  subst hr
  cases r' with
  | error e' => cases h
  | ok progress =>
    cases progress with
    | done form' =>
      have hdone : Progress.done form = .done form' := Except.ok.inj h
      rw [hdone]
    | reading stack => cases h

/-- When two steps have one outcome and the first one goes on, the second one goes on with a stack of the same
outline. -/
theorem exists_of_outcome_reading {r r' : Except ReadError Progress} {stack : List Frame}
    (h : outcome r = outcome r') (hr : r = .ok (.reading stack)) :
    ∃ stack', r' = .ok (.reading stack') ∧
      stack.map Frame.outline = stack'.map Frame.outline := by
  subst hr
  cases r' with
  | error e' => cases h
  | ok progress =>
    cases progress with
    | done form' => cases h
    | reading stack' =>
      have hreading : Progress.reading (stack.map Frame.outline) =
          .reading (stack'.map Frame.outline) := Except.ok.inj h
      exact ⟨stack', rfl, Progress.reading.inj hreading⟩

end Progress

namespace Cursor

/-! ## Whole forms -/

/-- How far the layout goes depends on the unread text alone. -/
theorem rest_skipLayout_congr {c c' : Cursor} (h : c.rest = c'.rest) :
    c.skipLayout.rest = c'.skipLayout.rest := by
  simp only [skipLayout, h]

/-- One token, or the fault in its place, and where it ends depend on the unread text alone. -/
theorem takeToken_congr {c c' : Cursor} (h : c.rest = c'.rest) :
    ReadError.faultOf c.takeToken.1 = ReadError.faultOf c'.takeToken.1 ∧
      c.takeToken.2.rest = c'.takeToken.2.rest := by
  unfold takeToken
  rw [h]
  split
  · next hrest => exact ⟨rfl, h.trans rfl⟩
  · next first others hrest =>
    refine ⟨?_, rfl⟩
    rw [ReadError.faultOf_map, ReadError.faultOf_map, ReadError.faultOf_locate,
      ReadError.faultOf_locate]

theorem next_congr {c c' : Cursor} (h : c.rest = c'.rest) :
    ReadError.faultOf c.next.1 = ReadError.faultOf c'.next.1 ∧ c.next.2.rest = c'.next.2.rest :=
  takeToken_congr (rest_skipLayout_congr h)

/-- Where a cursor finds a fault, one with the same unread text finds it too. -/
theorem exists_next_error {c c' after : Cursor} {e : ReadError} (h : c.rest = c'.rest)
    (hnext : c.next = (.error e, after)) :
    ∃ e' after', c'.next = (.error e', after') ∧ e'.fault = e.fault ∧ after.rest = after'.rest := by
  obtain ⟨hresult, hrest⟩ := next_congr h
  rw [hnext] at hresult hrest
  obtain ⟨e', he', hfault⟩ := ReadError.exists_of_faultOf_eq_error hresult.symm
  exact ⟨e', c'.next.2, Prod.ext he' rfl, hfault, hrest⟩

/-- Where a cursor finds a token or the end, one with the same unread text finds it too. -/
theorem exists_next_ok {c c' after : Cursor} {token : Option Token} (h : c.rest = c'.rest)
    (hnext : c.next = (.ok token, after)) :
    ∃ after', c'.next = (.ok token, after') ∧ after.rest = after'.rest := by
  obtain ⟨hresult, hrest⟩ := next_congr h
  rw [hnext] at hresult hrest
  exact ⟨c'.next.2, Prod.ext (ReadError.faultOf_eq_ok.1 hresult.symm) rfl, hrest⟩

/-- Reading with stacks of one outline gives the same form or fault and leaves the same text. -/
theorem readForm_congr {stack stack' : List Frame} {c c' : Cursor} (h : c.rest = c'.rest)
    (hstack : stack.map Frame.outline = stack'.map Frame.outline) :
    ReadError.faultOf (c.readForm stack).1 = ReadError.faultOf (c'.readForm stack').1 ∧
      (c.readForm stack).2.rest = (c'.readForm stack').2.rest := by
  fun_induction readForm stack c generalizing stack' c' with
  -- in each case the second cursor finds what the first one found, and leaves the same text
  | case1 stack c e after hnext =>
    obtain ⟨e', after', hnext', hfault, hrest⟩ := exists_next_error h hnext
    rw [readForm_of_next_error stack' hnext']
    exact ⟨congrArg Except.error hfault.symm, hrest⟩
  | case2 stack c after hnext =>
    obtain ⟨after', hnext', hrest⟩ := exists_next_ok h hnext
    rw [readForm_of_next_none stack' hnext']
    exact ⟨Progress.finish_congr hstack, hrest⟩
  | case3 stack c token after hnext e hstep =>
    obtain ⟨after', hnext', hrest⟩ := exists_next_ok h hnext
    have houtcome := Progress.step_congr hstack token after.tokenStart after'.tokenStart
    obtain ⟨e', hstep', hfault⟩ := Progress.exists_of_outcome_error houtcome hstep
    rw [readForm_of_next_some stack' hnext', hstep']
    exact ⟨congrArg Except.error hfault.symm, hrest⟩
  | case4 stack c token after hnext form hstep =>
    obtain ⟨after', hnext', hrest⟩ := exists_next_ok h hnext
    have houtcome := Progress.step_congr hstack token after.tokenStart after'.tokenStart
    have hstep' := Progress.eq_done_of_outcome houtcome hstep
    rw [readForm_of_next_some stack' hnext', hstep']
    exact ⟨rfl, hrest⟩
  | case5 stack c token after hnext inner hstep ih =>
    obtain ⟨after', hnext', hrest⟩ := exists_next_ok h hnext
    have houtcome := Progress.step_congr hstack token after.tokenStart after'.tokenStart
    obtain ⟨inner', hstep', hinner⟩ := Progress.exists_of_outcome_reading houtcome hstep
    rw [readForm_of_next_some stack' hnext', hstep']
    exact ih hrest hinner

theorem rest_skipTrailer_congr {c c' : Cursor} (h : c.rest = c'.rest) :
    c.skipTrailer.rest = c'.skipTrailer.rest := by
  simp only [skipTrailer, h]

/-- Reading one form depends on the unread text alone, the places in errors apart. -/
theorem read_congr {c c' : Cursor} (h : c.rest = c'.rest) :
    ReadError.faultOf c.read.1 = ReadError.faultOf c'.read.1 ∧ c.read.2.rest = c'.read.2.rest := by
  obtain ⟨hresult, hrest⟩ := readForm_congr h (rfl : ([] : List Frame).map Frame.outline = [].map Frame.outline)
  unfold read
  rcases hread : c.readForm [] with ⟨result, after⟩
  rcases hread' : c'.readForm [] with ⟨result', after'⟩
  rw [hread, hread'] at hresult hrest
  cases result with
  | error e =>
    obtain ⟨e', rfl, hfault⟩ := ReadError.exists_of_faultOf_eq_error hresult.symm
    exact ⟨hresult, hrest⟩
  | ok form =>
    obtain rfl := ReadError.faultOf_eq_ok.1 hresult.symm
    cases form with
    | none => exact ⟨rfl, hrest⟩
    | some form => exact ⟨rfl, rest_skipTrailer_congr hrest⟩

end Cursor

end SmallLisp
