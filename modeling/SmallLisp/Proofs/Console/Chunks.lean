import SmallLisp.Console
import SmallLisp.Proofs.Reader.Sealed

/-!
# A console may be fed line by line

What a console does with a text is told by the items it reads there: forms to run and faults to report.
`Cursor.items` reads them without running anything, and feeding is performing them one after the other
(`feed_eq_settle`). Cutting a text behind a sealed part cuts its items in two (`items_extend`), so feeding a
text in pieces performs the items of the whole text. Main statement: `feedChunks_agrees_feed`.
-/

namespace SmallLisp

open Text (Sealed)

/-! ## Items -/

/-- What a console finds in a text: a form to run, or an error to report. -/
inductive Item where
  | form (v : Value)
  | refused (e : ReadError)

namespace Item

/-- The form of an item that is one. -/
def form? : Item → Option Value
  | .form v => some v
  | .refused _ => none

/-- An item without the place of its error. -/
def unlocated : Item → Item
  | .form v => .form v
  | .refused e => .refused ⟨e.fault, ⟨0, 0⟩⟩

theorem form?_unlocated (item : Item) : item.unlocated.form? = item.form? := by
  cases item <;> rfl

end Item

/-- An event without the place of its read error. -/
def Event.unlocated : Event → Event
  | .reported (.read e) => .reported (.read ⟨e.fault, ⟨0, 0⟩⟩)
  | event => event

namespace Cursor

/-- The items of the unread text, and the text of a form that is still open at its end. With `atEnd` an
open form is an error like any other. -/
def items (c : Cursor) (atEnd : Bool) : List Item × Option (List Char) :=
  match _ : c.read with
  | (.ok none, _) => ([], none)
  | (.ok (some form), after) =>
    (.form form :: (after.items atEnd).1, (after.items atEnd).2)
  | (.error e, after) =>
    if e.isIncomplete && !atEnd then
      ([], some c.rest)
    else
      (.refused e :: ((ofList (Text.afterLine after.rest)).items atEnd).1,
        ((ofList (Text.afterLine after.rest)).items atEnd).2)
termination_by c.rest.length
decreasing_by
  · exact length_rest_of_read_some ‹_›
  · exact Nat.lt_of_le_of_lt (Text.length_afterLine_le after.rest) (length_rest_of_read_error ‹_›)

theorem items_of_read_none {c after : Cursor} (atEnd : Bool) (h : c.read = (.ok none, after)) :
    c.items atEnd = ([], none) := by
  rw [items]
  split <;> simp_all

theorem items_of_read_some {c after : Cursor} {form : Value} (atEnd : Bool)
    (h : c.read = (.ok (some form), after)) :
    c.items atEnd = (.form form :: (after.items atEnd).1, (after.items atEnd).2) := by
  rw [items]
  split <;> simp_all

/-- A form that is still open is left for later. -/
theorem items_of_read_open {c after : Cursor} {e : ReadError} {atEnd : Bool}
    (h : c.read = (.error e, after)) (hopen : (e.isIncomplete && !atEnd) = true) :
    c.items atEnd = ([], some c.rest) := by
  rw [items]
  split <;> simp_all

/-- What cannot be read is refused, and reading goes on behind its line. -/
theorem items_of_read_error {c after : Cursor} {e : ReadError} {atEnd : Bool}
    (h : c.read = (.error e, after)) (hreport : (e.isIncomplete && !atEnd) = false) :
    c.items atEnd =
      (.refused e :: ((ofList (Text.afterLine after.rest)).items atEnd).1,
        ((ofList (Text.afterLine after.rest)).items atEnd).2) := by
  rw [items]
  split <;> simp_all

end Cursor

namespace Console

/-- Evaluates the form of an item in the session and writes down what came of it, or reports the error of the item.
Errors of both kinds are counted. -/
def perform (c : Console) : Item → Console × Transcript
  | .form v =>
    let reply := c.session.evalForm v
    let failures := if reply.result.isOk then 0 else 1
    ({ c with session := reply.session, errors := c.errors + failures }, outcomeEvents c.echo reply)
  | .refused e => ({ c with errors := c.errors + 1 }, #[.reported (.read e)])

/-- The console runs a form by evaluating it once. -/
@[simp]
theorem perform_form (c : Console) (v : Value) : c.perform (.form v) = c.runForm v := by
  cases hresult : (c.session.evalForm v).result with
  | ok value => simp [perform, runForm, hresult, Except.isOk, Except.toBool]
  | error e => simp [perform, runForm, hresult, Except.isOk, Except.toBool]

/-- What was refused is reported and counted. -/
@[simp]
theorem perform_refused (c : Console) (e : ReadError) :
    c.perform (.refused e) = ({ c with errors := c.errors + 1 }, #[.reported (.read e)]) :=
  rfl

/-- Performs items one after the other, each once. -/
def performAll (c : Console) : List Item → Console × Transcript
  | [] => (c, #[])
  | item :: items =>
    let first := c.perform item
    let others := first.1.performAll items
    (others.1, first.2 ++ others.2)

/-- The result of performing items when the given text is left. -/
def settle (c : Console) (items : List Item) (tail : Option (List Char)) : Feed where
  console := (c.performAll items).1
  verdict := if tail.isSome then .needMore else .done
  remaining := tail.getD []
  transcript := (c.performAll items).2

/-- Items in two parts are performed one part after the other. -/
theorem performAll_append (c : Console) (items others : List Item) :
    c.performAll (items ++ others) =
      (((c.performAll items).1.performAll others).1,
        (c.performAll items).2 ++ ((c.performAll items).1.performAll others).2) := by
  induction items generalizing c with
  | nil => simp [performAll]
  | cons item items ih => simp [performAll, ih, Array.append_assoc]

/-- Running a text is performing its items. -/
theorem feedFrom_eq_settle (c : Console) (cursor : Cursor) (atEnd : Bool) (transcript : Transcript) :
    c.feedFrom cursor atEnd transcript =
      { c.settle (cursor.items atEnd).1 (cursor.items atEnd).2 with
        transcript := transcript ++ (c.performAll (cursor.items atEnd).1).2 } := by
  fun_induction feedFrom c cursor atEnd transcript with
  | case1 c cursor transcript after hread =>
    rw [Cursor.items_of_read_none atEnd hread]
    simp [settle, performAll]
  | case2 c cursor transcript form after hread c' events hrun ih =>
    rw [Cursor.items_of_read_some atEnd hread, ih]
    simp [settle, performAll, hrun, Array.append_assoc]
  | case3 c cursor transcript e after hread hopen =>
    rw [Cursor.items_of_read_open hread hopen]
    simp [settle, performAll]
  | case4 c cursor transcript e after hread hreport ih =>
    rw [Cursor.items_of_read_error hread (by simpa using hreport), ih]
    simp [settle, performAll]

/-- Feeding a buffer is performing its items. -/
theorem feed_eq_settle (c : Console) (buffer : List Char) (atEnd : Bool) :
    c.feed buffer atEnd =
      c.settle ((Cursor.ofList buffer).items atEnd).1 ((Cursor.ofList buffer).items atEnd).2 := by
  rw [feed, feedFrom_eq_settle, Array.empty_append]
  rfl

end Console

namespace Cursor

/-! ## Items of a text that is cut in two -/

/-- At the end of the input no form is left open. -/
theorem items_atEnd_snd (c : Cursor) : (c.items true).2 = none := by
  fun_induction items c true with
  | case1 c after hread => rfl
  | case2 c form after hread ih => exact ih
  | case3 c e after hread hopen => simp at hopen
  | case4 c e after hread hreport ih => exact ih

/-- Items are the same, places apart, wherever the first read finds the same. -/
theorem items_congr_of_read {c c' : Cursor}
    (hresult : ReadError.faultOf c.read.1 = ReadError.faultOf c'.read.1)
    (hrest : c.read.2.rest = c'.read.2.rest) :
    (c.items true).1.map Item.unlocated = (c'.items true).1.map Item.unlocated := by
  fun_induction items c true generalizing c' with
  | case1 c after hread =>
    rw [hread] at hresult
    have hnone := ReadError.faultOf_eq_ok.1 hresult.symm
    rw [items_of_read_none true (Prod.ext hnone rfl : c'.read = (.ok none, c'.read.2))]
  | case2 c form after hread ih =>
    rw [hread] at hresult hrest
    have hsome := ReadError.faultOf_eq_ok.1 hresult.symm
    rw [items_of_read_some true (Prod.ext hsome rfl : c'.read = (.ok (some form), c'.read.2))]
    obtain ⟨hresult', hrest'⟩ := read_congr hrest
    simp only [List.map_cons, ih hresult' hrest']
  | case3 c e after hread hopen => simp at hopen
  | case4 c e after hread hreport ih =>
    rw [hread] at hresult hrest
    obtain ⟨e', he', hfault⟩ := ReadError.exists_of_faultOf_eq_error hresult.symm
    rw [items_of_read_error (Prod.ext he' rfl : c'.read = (.error e', c'.read.2)) (by simp)]
    obtain ⟨hresult', hrest'⟩ :=
      read_congr (congrArg (fun rest => (ofList (Text.afterLine rest)).rest) hrest)
    simp only [List.map_cons, ih hresult' hrest', Item.unlocated, hfault]

/-- The items of a text do not depend on where it stands, the places in errors apart. -/
theorem items_congr {c c' : Cursor} (h : c.rest = c'.rest) :
    (c.items true).1.map Item.unlocated = (c'.items true).1.map Item.unlocated := by
  obtain ⟨hresult, hrest⟩ := read_congr h
  exact items_congr_of_read hresult hrest

/-- Text in which something is found is not empty, so it is sealed. -/
theorem sealed_of_read_ne_none {c : Cursor} (h : c.rest = [] ∨ Sealed c.rest)
    (hread : c.read.1 ≠ .ok none) : Sealed c.rest := by
  rcases h with hnil | hsealed
  · have hlt := c.length_rest_read_lt hread
    rw [hnil] at hlt
    exact absurd hlt (Nat.not_lt_zero _)
  · exact hsealed

/-- Without its first line a sealed text is empty or sealed. -/
theorem sealed_afterLine {text : List Char} (h : Sealed text) :
    Text.afterLine text = [] ∨ Sealed (Text.afterLine text) := by
  by_cases hnil : Text.afterLine text = []
  · exact .inl hnil
  · obtain ⟨before, hbefore⟩ := Text.exists_append_afterLine text
    rw [hbefore] at h
    exact .inr (h.of_append hnil)

/-- The items of a sealed text and of what follows it are those of the two parts, the second one with the
form in front that the first one left open. -/
theorem items_extend {c : Cursor} (h : c.rest = [] ∨ Sealed c.rest) (more : List Char) :
    ((c.extend more).items true).1.map Item.unlocated =
        ((c.items false).1 ++
          ((ofList ((c.items false).2.getD [] ++ more)).items true).1).map Item.unlocated ∧
      ((c.items false).2.getD [] = [] ∨ Sealed ((c.items false).2.getD [])) := by
  fun_induction items c false with
  | case1 c after hread =>
    refine ⟨?_, .inl rfl⟩
    rcases h with hnil | hsealed
    · exact items_congr (by simp [hnil, ofList])
    · obtain ⟨hresult, hrest⟩ :=
        read_extend_of_none hsealed.getLast?_eq (congrArg Prod.fst hread) more
      exact items_congr_of_read hresult hrest
  | case2 c form after hread ih =>
    have hsealed := sealed_of_read_ne_none h (by simp [hread])
    obtain ⟨happend, hafter⟩ := read_extend hsealed (by simp [hread]) (by simp [hread]) more
    rw [hread] at happend hafter
    obtain ⟨hitems, htail⟩ := ih (.inr hafter)
    refine ⟨?_, htail⟩
    rw [items_of_read_some true happend]
    simpa only [List.cons_append, List.map_cons, List.cons.injEq, true_and] using hitems
  | case3 c e after hread hopen =>
    -- nothing was read of the open form, so it is read anew from its start
    have hsealed := sealed_of_read_ne_none h (by simp [hread])
    exact ⟨items_congr rfl, .inr hsealed⟩
  | case4 c e after hread hreport ih =>
    have hsettled : ∀ e', c.read.1 = .error e' → e'.isIncomplete = false := by
      intro e' he'
      rw [hread] at he'
      cases he'
      simpa using hreport
    have hsealed := sealed_of_read_ne_none h (by simp [hread])
    obtain ⟨happend, hafter⟩ := read_extend hsealed (by simp [hread]) hsettled more
    rw [hread] at happend hafter
    obtain ⟨hitems, htail⟩ := ih (sealed_afterLine hafter)
    refine ⟨?_, htail⟩
    rw [items_of_read_error happend (by simp), rest_extend,
      Text.afterLine_append_of_mem hafter.newline_mem, ← extend_ofList]
    simpa only [List.cons_append, List.map_cons, List.cons.injEq, true_and] using hitems

end Cursor

namespace Console

/-! ## Feeding in chunks -/

/-- Feeds chunks one after the other: each is put behind what the buffer still holds, and only the last
one ends the input. -/
def feedChunks (c : Console) (buffer : List Char) : List (List Char) → List Char → Feed
  | [], last => c.feed (buffer ++ last) true
  | chunk :: chunks, last =>
    let first := c.feed (buffer ++ chunk) false
    let others := first.console.feedChunks first.remaining chunks last
    { others with transcript := first.transcript ++ others.transcript }

/-- The items that are performed when chunks are fed one after the other. -/
def chunkItems (buffer : List Char) : List (List Char) → List Char → List Item
  | [], last => ((Cursor.ofList (buffer ++ last)).items true).1
  | chunk :: chunks, last =>
    let first := (Cursor.ofList (buffer ++ chunk)).items false
    first.1 ++ chunkItems (first.2.getD []) chunks last

/-- By induction on the chunks, feeding them performs their items in turn. -/
theorem feedChunks_eq_settle (c : Console) (buffer : List Char) (chunks : List (List Char))
    (last : List Char) :
    c.feedChunks buffer chunks last = c.settle (chunkItems buffer chunks last) none := by
  induction chunks generalizing c buffer with
  | nil => rw [feedChunks, feed_eq_settle, Cursor.items_atEnd_snd, chunkItems]
  | cons chunk chunks ih =>
    simp only [feedChunks, chunkItems, feed_eq_settle, ih, settle, performAll_append]

/-- Chunks that end in sealed lines hold the items of the whole text. -/
theorem chunkItems_unlocated {buffer : List Char} {chunks : List (List Char)}
    (hbuffer : buffer = [] ∨ Sealed buffer) (h : ∀ chunk ∈ chunks, Sealed chunk) (last : List Char) :
    (chunkItems buffer chunks last).map Item.unlocated =
      ((Cursor.ofList (buffer ++ (chunks.flatten ++ last))).items true).1.map Item.unlocated := by
  induction chunks generalizing buffer with
  | nil => rfl
  | cons chunk chunks ih =>
    have hchunk : Sealed (buffer ++ chunk) := (h chunk List.mem_cons_self).append hbuffer
    obtain ⟨hitems, htail⟩ := Cursor.items_extend
      (.inr hchunk : (Cursor.ofList (buffer ++ chunk)).rest = [] ∨ Sealed (buffer ++ chunk))
      (chunks.flatten ++ last)
    have hothers := ih htail fun other hother => h other (List.mem_cons_of_mem chunk hother)
    rw [Cursor.extend_ofList] at hitems
    simp only [chunkItems, List.flatten_cons, List.append_assoc, List.map_append, hothers] at hitems ⊢
    exact hitems.symm

/-- An item is performed alike wherever it stood. -/
theorem perform_unlocated (c : Console) {item item' : Item} (h : item.unlocated = item'.unlocated) :
    (c.perform item).1 = (c.perform item').1 ∧
      (c.perform item).2.map Event.unlocated = (c.perform item').2.map Event.unlocated := by
  match item, item' with
  | .form v, .form v' =>
    cases h
    exact ⟨rfl, rfl⟩
  | .form v, .refused e' => nomatch h
  | .refused e, .form v' => nomatch h
  | .refused e, .refused e' =>
    refine ⟨rfl, ?_⟩
    have hfault : Item.refused ⟨e.fault, ⟨0, 0⟩⟩ = .refused ⟨e'.fault, ⟨0, 0⟩⟩ := h
    simp [Event.unlocated, Item.refused.inj hfault]

/-- Performing does not look at the places of errors; it only writes them down. -/
theorem performAll_unlocated (c : Console) {items items' : List Item}
    (h : items.map Item.unlocated = items'.map Item.unlocated) :
    (c.performAll items).1 = (c.performAll items').1 ∧
      (c.performAll items).2.map Event.unlocated = (c.performAll items').2.map Event.unlocated := by
  induction items generalizing c items' with
  | nil =>
    obtain rfl := List.map_eq_nil_iff.1 h.symm
    exact ⟨rfl, rfl⟩
  | cons item items ih =>
    cases items' with
    | nil => cases h
    | cons item' items' =>
      obtain ⟨hitem, hitems⟩ := List.cons.inj h
      obtain ⟨hconsole, htranscript⟩ := c.perform_unlocated hitem
      obtain ⟨hconsole', htranscript'⟩ := ih (c.perform item').1 hitems
      rw [performAll, performAll, hconsole]
      exact ⟨hconsole', by rw [Array.map_append, Array.map_append, htranscript, htranscript']⟩

/-- Feeding a text line by line, or in any chunks that end in sealed lines, runs the same forms in the same
order, each once, and ends with the same session, the same number of errors and the same transcript, the
places in read errors apart, as feeding it at once. Both ways perform the items of the text one after the other
(`settle`). -/
theorem feedChunks_agrees_feed (c : Console) (chunks : List (List Char)) (last : List Char)
    (h : ∀ chunk ∈ chunks, Sealed chunk) :
    let apart := c.feedChunks [] chunks last
    let whole := c.feed (chunks.flatten ++ last) true
    let apartItems := chunkItems [] chunks last
    let wholeItems := ((Cursor.ofList (chunks.flatten ++ last)).items true).1
    apart = c.settle apartItems none ∧ whole = c.settle wholeItems none ∧
      apartItems.filterMap Item.form? = wholeItems.filterMap Item.form? ∧
      apart.console = whole.console ∧ apart.verdict = whole.verdict ∧
      apart.remaining = whole.remaining ∧
      apart.transcript.map Event.unlocated = whole.transcript.map Event.unlocated := by
  intro apart whole apartItems wholeItems
  have hapart : apart = c.settle apartItems none := feedChunks_eq_settle c [] chunks last
  have hwhole : whole = c.settle wholeItems none := by
    rw [← Cursor.items_atEnd_snd (Cursor.ofList (chunks.flatten ++ last))]
    exact feed_eq_settle c (chunks.flatten ++ last) true
  -- the same items are found, but each chunk counts its lines from its own start
  have hitems : apartItems.map Item.unlocated = wholeItems.map Item.unlocated :=
    chunkItems_unlocated (.inl rfl) h last
  have hforms : ∀ items : List Item,
      items.filterMap Item.form? = (items.map Item.unlocated).filterMap Item.form? := by
    intro items
    rw [List.filterMap_map]
    exact congrArg (fun f => items.filterMap f) (funext fun item => item.form?_unlocated.symm)
  obtain ⟨hconsole, htranscript⟩ := c.performAll_unlocated hitems
  refine ⟨hapart, hwhole, ?_, ?_, ?_, ?_, ?_⟩
  · rw [hforms apartItems, hitems, ← hforms]
  · rw [hapart, hwhole]
    exact hconsole
  · rw [hapart, hwhole]
    rfl
  · rw [hapart, hwhole]
    rfl
  · rw [hapart, hwhole]
    exact htranscript

/-- A string that runs over two lines, a line with a stray bracket, and a form without a newline. -/
theorem feedChunks_agrees_feed_open_string :
    let c : Console := { session := { env := Bindings.empty, depth := 3 }, echo := true }
    let chunks := ["(def x \"a\n".toList, "b\") ; end\n".toList, ") x\n".toList]
    let last := "[x x]".toList
    (∀ chunk ∈ chunks, Sealed chunk) ∧
      (c.feedChunks [] chunks last).console = (c.feed (chunks.flatten ++ last) true).console ∧
      (c.feedChunks [] chunks last).transcript.map Event.unlocated =
        (c.feed (chunks.flatten ++ last) true).transcript.map Event.unlocated := by
  intro c chunks last
  have hsealed : ∀ chunk ∈ chunks, Sealed chunk := by decide
  have hagrees := feedChunks_agrees_feed c chunks last hsealed
  exact ⟨hsealed, hagrees.2.2.2.1, hagrees.2.2.2.2.2.2⟩

end Console

end SmallLisp
