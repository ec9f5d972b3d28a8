import SmallLisp.Proofs.Reader.Open

/-!
# Where read errors are located

`Concerns start fault place` says which text a fault of the form at `start` is about: it begins behind the
layout at `place`. A text that is no token is located where it begins, and a text that ends too early at the
bracket of the innermost open collection. A bracket that closes nothing is located at itself, and a key that
was there already at the form that writes it again. Main statement: `read_error_located`.
-/

namespace SmallLisp

open Text (Location)

namespace Cursor

/-- The text that a fault of the form at `start` is about begins behind the layout at the place. -/
inductive Concerns (start : Cursor) : ReadFault → Cursor → Prop where
  /-- The text there is no token. -/
  | refused {fault : ReadFault} {place : Cursor} (hplace : Stop start place)
      (hfaulty : Token.Faulty fault place.skipLayout.rest) : Concerns start fault place
  /-- The text ends inside a collection: this is about the bracket that opened it. -/
  | openCollection {opener stop : Cursor} {shape : Shape} {forms : List Value}
      (hwithin : Within start opener shape forms stop) (hend : stop.skipLayout.rest = []) :
      Concerns start (.unexpectedEnd shape.name) opener
  /-- A closing bracket stands where a form should begin. -/
  | strayCloser {closer : Closer} {rest : List Char} (hcloser : start.skipLayout.rest = closer.char :: rest) :
      Concerns start (.unmatchedDelimiter closer.char) start
  /-- A closing bracket stands in a collection that another one closes. -/
  | wrongCloser {opener stop : Cursor} {shape : Shape} {forms : List Value} {closer : Closer}
      {rest : List Char} (hwithin : Within start opener shape forms stop)
      (hcloser : stop.skipLayout.rest = closer.char :: rest) (hother : shape.closer ≠ closer) :
      Concerns start (.unmatchedDelimiter closer.char) stop
  /-- A map is closed between a key and its value. -/
  | oddMapForms {opener stop : Cursor} {pairs : List (Value × Value)} {key : Value} {rest : List Char}
      (hwithin : Within start opener .map (Value.alternating pairs ++ [key]) stop)
      (hcloser : stop.skipLayout.rest = '\x7d' :: rest) : Concerns start .oddMapForms stop
  /-- A map has the key already that is read there. -/
  | duplicateKey {opener stop after : Cursor} {pairs : List (Value × Value)} {pair : Value × Value}
      {key : Value} (hwithin : Within start opener .map (Value.alternating pairs) stop)
      (hkey : stop.readForm [] = (.ok (some key), after)) (hpair : pair ∈ pairs)
      (hequal : (pair.1 == key) = true) : Concerns start (.duplicateKey key.print) stop

end Cursor

/-! ## The place is in the text -/

theorem Token.Faulty.ne_nil {fault : ReadFault} {text : List Char} (h : Faulty fault text) : text ≠ [] := by
  cases h with
  | @invalidNumber run rest hrun hnumber hrest =>
    cases run with
    | nil => cases hnumber
    | cons c run => exact List.cons_ne_nil _ _
  | _ => exact List.cons_ne_nil _ _

namespace Cursor

theorem Within.stop {start opener stop : Cursor} {shape : Shape} {forms : List Value}
    (h : Within start opener shape forms stop) : Stop start stop := by
  obtain ⟨inside, -, hopen, hforms⟩ := h.holds
  exact h.reached.trans (.later hopen hforms.stop)

theorem Concerns.stop {start place : Cursor} {fault : ReadFault} (h : Concerns start fault place) :
    Stop start place := by
  cases h with
  | refused hplace hfaulty => exact hplace
  | openCollection hwithin hend => exact hwithin.reached
  | strayCloser hcloser => exact .here start
  | wrongCloser hwithin hcloser hother => exact hwithin.stop
  | oddMapForms hwithin hcloser => exact hwithin.stop
  | duplicateKey hwithin hkey hpair hequal => exact hwithin.stop

/-- The text that a fault is about has a first character. -/
theorem Concerns.ne_nil {start place : Cursor} {fault : ReadFault} (h : Concerns start fault place) :
    place.skipLayout.rest ≠ [] := by
  cases h with
  | refused hplace hfaulty => exact hfaulty.ne_nil
  | openCollection hwithin hend =>
    obtain ⟨inside, -, hopen, -⟩ := hwithin.holds
    exact skipLayout_rest_ne_nil_of_next hopen
  | strayCloser hcloser => simp [hcloser]
  | wrongCloser hwithin hcloser hother => simp [hcloser]
  | oddMapForms hwithin hcloser => simp [hcloser]
  | duplicateKey hwithin hkey hpair hequal => exact skipLayout_rest_ne_nil_of_form hkey

/-! ## Faults with collections open -/

/-- A form is refused by a map that has its key already. The fault is located where the key began. -/
theorem Opened.deliver_error {start c : Cursor} {stack : List Frame} {v : Value} {place : Location}
    {e : ReadError} (h : Opened start stack c) (hdeliver : Progress.deliver v place stack = .error e) :
    ∃ stop, Concerns start e.fault stop ∧ e.location = stop.skipLayout.tokenStart := by
  cases h with
  | nil => cases hdeliver
  | @cons outer frame opener inside c houter hopen hplace hresume hspans =>
    obtain ⟨opened, content⟩ := frame
    simp only [Progress.deliver] at hdeliver
    split at hdeliver
    · cases hdeliver
    · next hadd =>
      cases hdeliver
      unfold Frame.add at hadd
      -- only a map with a key that waits can refuse a form
      split at hadd
      case h_5 entries key keyStart hcontent =>
        cases hcontent
        split at hadd
        · next hfound =>
          cases hadd
          obtain ⟨pairs, middle, hentries, hforms, rfl, hkey⟩ := hspans
          obtain ⟨pair, hpair, hequal⟩ := Value.exists_of_lookup?_isSome hentries hfound
          exact ⟨middle, .duplicateKey (houter.within hopen hforms) hkey hpair hequal, rfl⟩
        · cases hadd
      all_goals cases hadd

/-- A token that cannot stand where it does. -/
theorem Opened.misplaced {start c after : Cursor} {stack : List Frame} {token : Token} {e : ReadError}
    (h : Opened start stack c) (hnext : c.next = (.ok (some token), after))
    (hstep : Progress.step stack token after.tokenStart = .error e) :
    ∃ stop, Concerns start e.fault stop ∧ e.location = stop.skipLayout.tokenStart := by
  have hstart := tokenStart_of_next hnext
  cases token with
  | opening shape => cases hstep
  | atom a => exact h.deliver_error hstep
  | closing closer =>
    have hcloser : c.skipLayout.rest = closer.char :: after.rest := by
      rw [text_of_next hnext (fun _ => Token.noConfusion)]
      cases closer <;> rfl
    cases h with
    | nil =>
      cases hstep
      exact ⟨start, .strayCloser hcloser, hstart⟩
    | @cons outer frame opener inside c houter hopen hplace hresume hspans =>
      simp only [Progress.step, Progress.close] at hstep
      split at hstep
      · next hsame =>
        split at hstep
        · -- the closed collection is itself a value, and the map around it has the key already
          exact houter.deliver_error hstep
        · next hfinish =>
          cases hstep
          obtain ⟨opened, content⟩ := frame
          unfold Frame.finish at hfinish
          split at hfinish
          case h_5 entries waiting hcontent =>
            cases hcontent
            cases hfinish
            cases hsame
            obtain ⟨key, keyStart⟩ := waiting
            obtain ⟨pairs, middle, -, hforms, -, hkey⟩ := hspans
            exact ⟨c, .oddMapForms (houter.within hopen (hforms.concat hkey)) hcloser, hstart⟩
          all_goals cases hfinish
      · next hother =>
        cases hstep
        obtain ⟨forms, hforms⟩ := hspans.forms
        exact ⟨c, .wrongCloser (houter.within hopen hforms) hcloser hother, hstart⟩

/-- Whatever makes reading fail, the fault is located at the text it is about. -/
theorem Opened.fails {start c : Cursor} {stack : List Frame} {e : ReadError} (h : Opened start stack c)
    (hfails : Fails stack c e) :
    ∃ stop, Concerns start e.fault stop ∧ e.location = stop.skipLayout.tokenStart := by
  cases hfails with
  | refused hnext =>
    obtain ⟨first, others, hrest, hscan, hlocation, -⟩ := scan_of_next_error hnext
    refine ⟨c, .refused h.stop ?_, hlocation⟩
    rw [hrest]
    exact Token.faulty_of_scan hscan
  | ended hnext hfinish =>
    cases h with
    | nil => cases hfinish
    | cons houter hopen hplace hresume hspans =>
      cases hfinish
      obtain ⟨forms, hforms⟩ := hspans.forms
      obtain ⟨hend, -⟩ := rest_of_next_none hnext
      exact ⟨_, .openCollection (houter.within hopen hforms) hend, hplace.trans (tokenStart_of_next hopen)⟩
  | misplaced hnext hstep => exact h.misplaced hnext hstep

/-- Every read error points at the text it is about. Whichever read of a text fails, its error is located at
a character of the text: the one behind the layout at the place that the fault is about. -/
theorem read_error_located {text : String} {n : Nat} {e : ReadError}
    (h : ((ofString text).afterReads n).read.1 = .error e) :
    ∃ place before, Concerns ((ofString text).afterReads n) e.fault place ∧
      text.toList = before ++ place.skipLayout.rest ∧ place.skipLayout.rest ≠ [] ∧
      e.location = Location.behind before := by
  have hform := readForm_of_read_error (Prod.ext h rfl : _ = (Except.error e, _))
  obtain ⟨stack, last, hsteps, hfails⟩ := exists_steps_of_error hform
  obtain ⟨place, hconcerns, hlocation⟩ := (Opened.nil.steps hsteps).fails hfails
  have hleads : Leads (ofString text) place.skipLayout :=
    ((leads_afterReads _ n).trans hconcerns.stop.leads).trans place.leads_skipLayout
  obtain ⟨before, htext, hbehind⟩ := location_of_leads hleads
  exact ⟨place, before, hconcerns, htext, hconcerns.ne_nil, hlocation.trans hbehind⟩

/-- A key is written twice in a map that spans lines, in the second form of the text. -/
theorem read_error_located_duplicate_key :
    let text := "a\n(b \x7b:k [1\n2], 7 8,\n :k #\x7b\x7d\x7d)"
    let e : ReadError := ⟨.duplicateKey ":k", ⟨4, 2⟩⟩
    ((ofString text).afterReads 1).read.1 = .error e ∧
      ∃ place before, Concerns ((ofString text).afterReads 1) (.duplicateKey ":k") place ∧
        text.toList = before ++ place.skipLayout.rest ∧ place.skipLayout.rest ≠ [] ∧
        ⟨4, 2⟩ = Location.behind before := by
  intro text e
  have hread : ((ofString text).afterReads 1).read.1 = .error e :=
    error_of_map (by decide +kernel : ((ofString text).afterReads 1).read.1.map (fun _ => ()) = .error e)
  exact ⟨hread, read_error_located hread⟩

end Cursor

end SmallLisp
