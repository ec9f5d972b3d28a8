import SmallLisp.Proofs.Decimal.ReadBack
import SmallLisp.Proofs.Token.Spelling
import SmallLisp.Proofs.Value.Order
import SmallLisp.Proofs.Value.Parts
import SmallLisp.Reader.Basic

/-!
# The text of a value reads back as the value

A value is readable when everything in it has a spelling of its own (`Value.isReadable`), and sorted when
its sets and maps hold their elements in order, as the operations on them keep it (`Value.isSorted`). The
text of such a value is read as the value wherever a token may end after it (`Value.reads`), by induction
on the value: atoms are spelled by one token, and an open collection takes in one element after the other.
Main statement: the texts of any number of values, with layout between them, read as these values
(`readAll_join`).
-/

namespace SmallLisp

open Text (Layout Separator Solid Terminated)

/-! ## Adding at the end -/

namespace Sorted

variable {α κ : Type}

instance (cmp : α → α → Ordering) (xs : List α) : Decidable (Increasing cmp xs) :=
  inferInstanceAs (Decidable (xs.Pairwise fun a b => cmp a b = .lt))

instance orientedCmp_keys (cmp : κ → κ → Ordering) [Std.OrientedCmp cmp] :
    Std.OrientedCmp fun a b : κ × α => cmp a.1 b.1 where
  eq_swap := by
    intro a b
    exact Std.OrientedCmp.eq_swap

/-- What comes after everything else is put at the end. -/
theorem insert_of_forall_gt {cmp : α → α → Ordering} {x : α} {xs : List α}
    (h : ∀ y ∈ xs, cmp x y = .gt) : insert cmp x xs = xs ++ [x] := by
  induction xs with
  | nil => rfl
  | cons y ys ih =>
    have hy : cmp x y = .gt := h y List.mem_cons_self
    simp only [insert, hy, ih fun z hz => h z (List.mem_cons_of_mem y hz), List.cons_append]

/-- A key that comes after all others is not there. -/
theorem lookup?_of_forall_gt {cmp : κ → κ → Ordering} {key : κ} {entries : List (κ × α)}
    (h : ∀ entry ∈ entries, cmp key entry.1 = .gt) : lookup? cmp key entries = none := by
  induction entries with
  | nil => rfl
  | cons entry rest ih =>
    have hentry : cmp key entry.1 = .gt := h entry List.mem_cons_self
    simp [lookup?, hentry, ih fun other hother => h other (List.mem_cons_of_mem entry hother)]

/-- In an increasing sequence an element comes after all those before it. -/
theorem Increasing.gt_of_mem {cmp : α → α → Ordering} [Std.OrientedCmp cmp] {before rest : List α}
    {x : α} (h : Increasing cmp (before ++ x :: rest)) : ∀ y ∈ before, cmp x y = .gt := by
  intro y hy
  have hlt : cmp y x = .lt := (List.pairwise_append.1 h).2.2 y hy x List.mem_cons_self
  exact Std.OrientedCmp.gt_of_lt hlt

/-- Elements that come in order are appended one by one. -/
theorem foldl_insert {cmp : α → α → Ordering} [Std.OrientedCmp cmp] {acc items : List α}
    (h : Increasing cmp (acc ++ items)) :
    items.foldl (fun acc item => insert cmp item acc) acc = acc ++ items := by
  induction items generalizing acc with
  | nil => simp
  | cons x rest ih =>
    rw [List.foldl_cons, insert_of_forall_gt h.gt_of_mem, ih (by simpa using h),
      List.append_assoc, List.singleton_append]

end Sorted

namespace Value

/-- A set of elements that are in order holds them as they are. -/
theorem ofItems_of_increasing {items : List Value} (h : Sorted.Increasing cmp items) :
    ofItems items = .set items :=
  congrArg Value.set (Sorted.foldl_insert (by simpa using h))

/-! ## Readable values -/

/-- A name that is one run: it has a character, and none that ends a run. -/
def isRunName (name : String) : Bool :=
  !name.toList.isEmpty && name.toList.all fun c => !Text.isTerminator c

/-- Whether a value, its parts aside, is what its text is read as. Functions never are, symbols must not
look like numbers or be reserved words, and doubles must be finite. -/
def hasSpelling : Value → Bool
  | .float x => x.isFinite
  | .symbol s =>
    isRunName s.name && !(s.name == "nil" || s.name == "true" || s.name == "false") &&
      !Token.startsNumber s.name.toList
  | .keyword k => isRunName k.name
  | .native _ => false
  | .fn _ => false
  | _ => true

/-- Values whose text can be read, at every depth. -/
def isReadable (v : Value) : Bool :=
  v.everywhere hasSpelling

/-- Whether a set or a map, its parts aside, is in order. -/
def inOrder : Value → Bool
  | .set items => decide (Sorted.Increasing cmp items)
  | .map entries => decide (Sorted.Increasing (fun a b => cmp a.1 b.1) entries)
  | _ => true

/-- Values in which every set and every map is in order. Inserting keeps the order
(`Sorted.increasing_insert`), and sets and maps are built by inserting only. -/
def isSorted (v : Value) : Bool :=
  v.everywhere inOrder

/-! ## Atoms -/

theorem ordinary_of_isRunName {name : String} (h : isRunName name = true) :
    name.toList ≠ [] ∧ ∀ c ∈ name.toList, Text.isTerminator c = false := by
  obtain ⟨hne, hall⟩ := Bool.and_eq_true_iff.1 h
  exact ⟨by simpa using hne, Text.ordinary_of_all hall⟩

/-- The text of a number is a run that starts like a number. -/
theorem startsNumber_signed (negative : Bool) {body : List Char} (hne : body ≠ [])
    (hbody : ∀ c ∈ body.head?, Text.isDigit c = true) :
    Token.startsNumber (Numeral.signChars negative ++ body) = true := by
  obtain ⟨c, others, rfl⟩ := List.exists_cons_of_ne_nil hne
  have hc : Text.isDigit c = true := hbody c rfl
  cases negative <;> simp [Numeral.signChars, Token.startsNumber, Token.startsWithDigit, hc]

theorem ordinary_signChars (negative : Bool) :
    ∀ c ∈ Numeral.signChars negative, Text.isTerminator c = false := by
  cases negative <;> exact Text.ordinary_of_all (by decide)

/-- An integer is spelled by its digits, with a sign in front of them if it is negative. -/
theorem spells_int (n : Int64) {rest : List Char} (hrest : Terminated rest) :
    Token.Spells (integerText n.toInt) rest (.atom (.int n)) := by
  have hdigits : ∀ c ∈ Decimal.digits n.toInt.natAbs, Text.isDigit c = true :=
    fun c hc => Numeral.isDigit_of_mem_digits hc
  have hne := Decimal.digits_ne_nil n.toInt.natAbs
  have htext := integerText_eq n.toInt
  apply Token.spells_run
  · rw [htext]
    exact List.append_ne_nil_of_right_ne_nil _ hne
  · rw [htext]
    intro c hc
    rcases List.mem_append.1 hc with hc | hc
    · exact ordinary_signChars _ c hc
    · exact Text.isTerminator_of_isDigit (hdigits c hc)
  · exact hrest
  -- the lexer tells a number by its first characters, and then reads the digits
  · have hnumber : Token.startsNumber (integerText n.toInt) = true := by
      rw [htext]
      exact startsNumber_signed _ hne fun c hc => hdigits c (List.mem_of_mem_head? hc)
    simp [Token.runNamed, hnumber, Token.numberNamed, Number.ofNumeral?_integerText]

/-- A finite double is spelled by its decimal with a point. -/
theorem spells_float {x : Binary64} (hx : x.isFinite = true) {rest : List Char}
    (hrest : Terminated rest) : Token.Spells x.valueText rest (.atom (.float x)) := by
  obtain ⟨whole, fraction, htext, hne, hwhole, hfraction, -⟩ := Binary64.valueText_eq hx
  apply Token.spells_run
  · rw [htext]
    simp
  · rw [htext]
    intro c hc
    simp only [List.mem_append, List.mem_cons] at hc
    rcases hc with hc | hc | rfl | hc
    · exact ordinary_signChars _ c hc
    · exact Text.isTerminator_of_isDigit (hwhole c hc)
    · decide
    · exact Text.isTerminator_of_isDigit (hfraction c hc)
  · exact hrest
  · have hnumber : Token.startsNumber x.valueText = true := by
      rw [htext]
      exact startsNumber_signed _ (by simp) (Numeral.head_point hne hwhole)
    simp [Token.runNamed, hnumber, Token.numberNamed, Binary64.ofNumeral?_valueText hx]

/-- A character is spelled by its name, or by itself behind the backslash. -/
theorem spells_char (c : Char) {rest : List Char} (hrest : Terminated rest) :
    Token.Spells ('\\' :: characterName c) rest (.atom (.char c)) := by
  unfold characterName
  split
  · exact Token.spells_character (Text.ordinary_of_all (by decide)) hrest rfl
  · exact Token.spells_character (Text.ordinary_of_all (by decide)) hrest rfl
  · exact Token.spells_character (Text.ordinary_of_all (by decide)) hrest rfl
  · apply Token.spells_character
    · simp
    · exact hrest
    · simp [Token.namedCharacter]

/-- A symbol that is no number and no reserved word is spelled by its name. -/
theorem spells_symbol {name : String} (h : hasSpelling (.symbol ⟨name⟩) = true) {rest : List Char}
    (hrest : Terminated rest) : Token.Spells name.toList rest (.atom (.symbol name)) := by
  simp only [hasSpelling, Bool.and_eq_true, Bool.not_eq_true', Bool.or_eq_false_iff] at h
  obtain ⟨⟨hname, ⟨hnil, htrue⟩, hfalse⟩, hnumber⟩ := h
  obtain ⟨hne, hordinary⟩ := ordinary_of_isRunName hname
  apply Token.spells_run hne hordinary hrest
  simp [Token.runNamed, hnumber, Token.symbolNamed, hnil, htrue, hfalse]

/-- An atom with a spelling is spelled by its text. -/
theorem spells_atom {a : Atom} (h : hasSpelling a.toValue = true) {rest : List Char}
    (hrest : Terminated rest) : Token.Spells a.toValue.chars rest (.atom a) := by
  cases a with
  | nil => exact Token.spells_run (by decide) (Text.ordinary_of_all (by decide)) hrest rfl
  | bool b =>
    cases b <;> exact Token.spells_run (by decide) (Text.ordinary_of_all (by decide)) hrest rfl
  | int n => exact spells_int n hrest
  | float x => exact spells_float h hrest
  | char c => exact spells_char c hrest
  | string s =>
    have hspells := Token.spells_string s.toList rest
    rwa [String.ofList_toList] at hspells
  | symbol name => exact spells_symbol h hrest
  | keyword name =>
    obtain ⟨hne, hordinary⟩ := ordinary_of_isRunName h
    have hspells := Token.spells_keyword hne hordinary hrest
    rwa [String.ofList_toList] at hspells

end Value

namespace Cursor

/-! ## One token at a time -/

/-- Goes on after a token: reads further while collections are open. -/
def resume (c : Cursor) : Except ReadError Progress → Except ReadError (Option Value) × Cursor
  | .error e => (.error e, c)
  | .ok (.done form) => (.ok (some form), c)
  | .ok (.reading stack) => c.readForm stack

theorem rest_skipLayout {c : Cursor} {layout text : List Char} (hlayout : Layout layout)
    (htext : Solid text) (hc : c.rest = layout ++ text) : c.skipLayout.rest = text := by
  have hskip := Text.splitLayout_layout hlayout text
  rw [Text.splitLayout_of_solid htext, ← hc] at hskip
  exact hskip

/-- A spelled token is taken and handed to the open collections. -/
theorem readForm_of_spells {c : Cursor} {text rest : List Char} {token : Token} (stack : List Frame)
    (h : Token.Spells text rest token) (hc : c.skipLayout.rest = text ++ rest) :
    ∃ (after : Cursor) (place : Text.Location), after.rest = rest ∧
      c.readForm stack = after.resume (Progress.step stack token place) := by
  obtain ⟨first, others, htext, -, -, houtcome, hrest⟩ := h
  rw [htext] at hc
  have hnext : ∃ after, c.next = (.ok (some token), after) ∧ after.rest = rest := by
    rw [next, takeToken, hc]
    dsimp only
    rw [houtcome]
    exact ⟨_, rfl, hrest⟩
  obtain ⟨after, hnext, hafter⟩ := hnext
  refine ⟨after, after.tokenStart, hafter, ?_⟩
  rw [readForm_of_next_some stack hnext]
  unfold resume
  rfl

end Cursor

namespace Value

/-! ## Collections -/

/-- The text of the value starts with a character of its own, and wherever a token may end after it, it
is read as the value. -/
structure Reads (v : Value) : Prop where
  starts : ∃ c others, v.chars = c :: others ∧ Text.isBlank c = false ∧ c ≠ ';'
  reads : ∀ (c : Cursor) (stack : List Frame) (rest : List Char), Terminated rest →
    c.skipLayout.rest = v.chars ++ rest →
      ∃ (after : Cursor) (place : Text.Location), after.rest = rest ∧
        c.readForm stack = after.resume (Progress.deliver v place stack)

/-- The text of a value that is read back is not taken for layout. -/
theorem Reads.solid {v : Value} (h : v.Reads) (rest : List Char) : Solid (v.chars ++ rest) := by
  obtain ⟨c, others, hchars, hblank, hcomment⟩ := h.starts
  rw [hchars]
  intro d hd
  cases hd
  exact ⟨hblank, hcomment⟩

theorem reads_atom {a : Atom} (h : hasSpelling a.toValue = true) : a.toValue.Reads where
  starts := by
    obtain ⟨c, others, hchars, hblank, hcomment, -, -⟩ := spells_atom h Text.terminated_nil
    exact ⟨c, others, by rwa [List.append_nil] at hchars, hblank, hcomment⟩
  reads := by
    intro c stack rest hrest hc
    exact Cursor.readForm_of_spells stack (spells_atom h hrest) hc

/-- A collection is read if what stands between its brackets fills an open frame with its parts. -/
theorem reads_collection {v : Value} (shape : Shape) {content : Partial} {body : List Char}
    (hchars : v.chars = shape.text.toList ++ (body ++ [shape.closer.char]))
    (hshape : content.shape = shape)
    (hfinish : ∀ opened place, Frame.finish ⟨opened, content⟩ place = .ok v)
    (hsolid : ∀ rest, Solid (body ++ shape.closer.char :: rest))
    (hbody : ∀ (c : Cursor) (opened : Text.Location) (stack : List Frame) (rest : List Char),
      c.skipLayout.rest = body ++ shape.closer.char :: rest →
        ∃ after : Cursor, after.skipLayout.rest = shape.closer.char :: rest ∧
          c.readForm (⟨opened, .empty shape⟩ :: stack) =
            after.readForm (⟨opened, content⟩ :: stack)) : v.Reads where
  starts := by
    obtain ⟨c, others, hopening, hblank, hcomment, -, -⟩ :=
      Token.spells_opening shape (body ++ [shape.closer.char])
    exact ⟨c, others, hchars.trans hopening, hblank, hcomment⟩
  reads := by
    intro c stack rest _ hc
    rw [hchars, List.append_assoc, List.append_assoc, List.singleton_append] at hc
    -- The opening bracket puts an empty frame on the stack, the body fills it, and the closing bracket
    -- takes it off again: the value began where the frame was opened.
    obtain ⟨inside, opened, hinside, hopen⟩ :=
      Cursor.readForm_of_spells stack (Token.spells_opening shape _) hc
    obtain ⟨last, hlast, hfill⟩ :=
      hbody inside opened stack rest (Cursor.rest_skipLayout .nil (hsolid rest) hinside)
    obtain ⟨after, place, hafter, hclose⟩ :=
      Cursor.readForm_of_spells (⟨opened, content⟩ :: stack)
        (Token.spells_closing shape.closer rest) hlast
    have hstep : Progress.step (⟨opened, content⟩ :: stack) (.closing shape.closer) place =
        Progress.deliver v opened stack := by
      have hcloser : (Frame.mk opened content).shape.closer = shape.closer := congrArg _ hshape
      simp only [Progress.step, Progress.close, hcloser, if_true, hfinish]
    refine ⟨after, opened, hafter, ?_⟩
    rw [hopen, ← hstep, ← hclose, ← hfill]
    rfl

/-- What stands between an element and those after it. -/
def gap {α : Type} : List α → List Char
  | [] => []
  | _ :: _ => [' ']

theorem layout_gap {α : Type} (rest : List α) : Layout (gap rest) := by
  cases rest with
  | nil => exact .nil
  | cons _ _ => exact .blank (by decide) .nil

/-- Elements are written one after the other with a gap between them. -/
theorem itemChars_cons (v : Value) (rest : List Value) :
    itemChars (v :: rest) = v.chars ++ (gap rest ++ itemChars rest) := by
  cases rest <;> simp [itemChars, gap]

/-- Keys and values are written in turn, with a gap between entries. -/
theorem entryChars_cons (k v : Value) (rest : List (Value × Value)) :
    entryChars ((k, v) :: rest) = k.chars ++ ' ' :: (v.chars ++ (gap rest ++ entryChars rest)) := by
  cases rest <;> simp [entryChars, gap]

section Sequence

variable {closer : Closer} {rest : List Char}

theorem solid_closer : Solid (closer.char :: rest) := by
  have hsolid := (Token.spells_closing closer rest).solid
  exact hsolid

/-- Between the brackets of a sequence stands an element first, or the closing bracket. -/
theorem solid_itemChars {items : List Value} (h : ∀ v ∈ items, v.Reads) :
    Solid (itemChars items ++ closer.char :: rest) := by
  cases items with
  | nil => exact solid_closer
  | cons v others =>
    rw [itemChars_cons, List.append_assoc]
    exact (h v List.mem_cons_self).solid _

/-- An element is ended by the gap behind it, or else by what follows the last one. -/
theorem terminated_gap {α : Type} (others : List α) {text : List Char}
    (h : others = [] → Terminated text) : Terminated (gap others ++ text) := by
  cases others with
  | nil => exact h rfl
  | cons _ _ => exact Text.terminated_cons (by decide) _

/-- An open sequence takes in its elements one after the other. -/
theorem readForm_items {content : List Value → Partial}
    (hadd : ∀ opened acc v start,
      Frame.add ⟨opened, content acc⟩ v start = .ok ⟨opened, content (v :: acc)⟩)
    {items : List Value} (h : ∀ v ∈ items, v.Reads) (acc : List Value) (c : Cursor)
    (opened : Text.Location) (stack : List Frame)
    (hc : c.skipLayout.rest = itemChars items ++ closer.char :: rest) :
    ∃ after : Cursor, after.skipLayout.rest = closer.char :: rest ∧
      c.readForm (⟨opened, content acc⟩ :: stack) =
        after.readForm (⟨opened, content (items.reverse ++ acc)⟩ :: stack) := by
  induction items generalizing acc c with
  | nil => exact ⟨c, hc, rfl⟩
  | cons v others ih =>
    -- One element moves from the text to the frame, which holds the newest first.
    have hothers : ∀ w ∈ others, w.Reads := fun w hw => h w (List.mem_cons_of_mem v hw)
    rw [itemChars_cons, List.append_assoc, List.append_assoc] at hc
    have hterminated : Terminated (gap others ++ (itemChars others ++ closer.char :: rest)) := by
      apply terminated_gap
      rintro rfl
      exact Text.terminated_cons (Token.isTerminator_char closer) rest
    obtain ⟨next, place, hnext, hread⟩ := (h v List.mem_cons_self).reads c
      (⟨opened, content acc⟩ :: stack) _ hterminated hc
    obtain ⟨after, hafter, hrest⟩ := ih hothers (v :: acc) next
      (Cursor.rest_skipLayout (layout_gap others) (solid_itemChars hothers) hnext)
    refine ⟨after, hafter, ?_⟩
    rw [hread, Progress.deliver, hadd, List.reverse_cons, List.append_assoc, List.singleton_append,
      ← hrest]
    rfl

/-- A list, vector or set is read back when its elements are. -/
theorem reads_sequence {v : Value} (shape : Shape) {content : List Value → Partial}
    {items : List Value}
    (hchars : v.chars = shape.text.toList ++ (itemChars items ++ [shape.closer.char]))
    (hempty : .empty shape = content []) (hshape : (content items.reverse).shape = shape)
    (hadd : ∀ opened acc w start,
      Frame.add ⟨opened, content acc⟩ w start = .ok ⟨opened, content (w :: acc)⟩)
    (hfinish : ∀ opened place, Frame.finish ⟨opened, content items.reverse⟩ place = .ok v)
    (hitems : ∀ w ∈ items, w.Reads) : v.Reads := by
  apply reads_collection shape hchars hshape hfinish
  · exact fun rest => solid_itemChars hitems
  · intro c opened stack rest hc
    have hfill := readForm_items hadd hitems [] c opened stack hc
    rwa [List.append_nil, ← hempty] at hfill

/-- Between the brackets of a map stands a key first, or the closing bracket. -/
theorem solid_entryChars {entries : List (Value × Value)}
    (h : ∀ entry ∈ entries, entry.1.Reads ∧ entry.2.Reads) :
    Solid (entryChars entries ++ closer.char :: rest) := by
  cases entries with
  | nil => exact solid_closer
  | cons entry others =>
    rw [entryChars_cons, List.append_assoc]
    exact (h entry List.mem_cons_self).1.solid _

/-- An open map takes in its entries one after the other; each key comes after those that are there, so
none is there twice. -/
theorem readForm_entries {entries : List (Value × Value)}
    (h : ∀ entry ∈ entries, entry.1.Reads ∧ entry.2.Reads) (acc : List (Value × Value))
    (horder : Sorted.Increasing (fun a b => cmp a.1 b.1) (acc ++ entries)) (c : Cursor)
    (opened : Text.Location) (stack : List Frame)
    (hc : c.skipLayout.rest = entryChars entries ++ closer.char :: rest) :
    ∃ after : Cursor, after.skipLayout.rest = closer.char :: rest ∧
      c.readForm (⟨opened, .map acc none⟩ :: stack) =
        after.readForm (⟨opened, .map (acc ++ entries) none⟩ :: stack) := by
  induction entries generalizing acc c with
  | nil => exact ⟨c, hc, by rw [List.append_nil]⟩
  | cons entry others ih =>
    obtain ⟨k, v⟩ := entry
    obtain ⟨hk, hv⟩ := h (k, v) List.mem_cons_self
    have hothers : ∀ entry ∈ others, entry.1.Reads ∧ entry.2.Reads :=
      fun entry hentry => h entry (List.mem_cons_of_mem _ hentry)
    have hgreatest : ∀ entry ∈ acc, cmp k entry.1 = .gt := horder.gt_of_mem
    have hlookup : lookup? k acc = none := Sorted.lookup?_of_forall_gt hgreatest
    have hinsert : insertEntry k v acc = acc ++ [(k, v)] := Sorted.insert_of_forall_gt hgreatest
    rw [entryChars_cons, List.append_assoc, List.cons_append, List.append_assoc,
      List.append_assoc] at hc
    -- The key waits in the frame.
    obtain ⟨middle, keyPlace, hmiddle, hkey⟩ := hk.reads c (⟨opened, .map acc none⟩ :: stack) _
      (Text.terminated_cons (by decide) _) hc
    have hterminated : Terminated (gap others ++ (entryChars others ++ closer.char :: rest)) := by
      apply terminated_gap
      rintro rfl
      exact Text.terminated_cons (Token.isTerminator_char closer) rest
    -- With the value the entry goes to the end.
    obtain ⟨next, place, hnext, hvalue⟩ := hv.reads middle
      (⟨opened, .map acc (some (k, keyPlace))⟩ :: stack) _ hterminated
      (Cursor.rest_skipLayout (.blank (c := ' ') (by decide) .nil) (hv.solid _) hmiddle)
    obtain ⟨after, hafter, hrest⟩ := ih hothers (acc ++ [(k, v)]) (by simpa using horder) next
      (Cursor.rest_skipLayout (layout_gap others) (solid_entryChars hothers) hnext)
    refine ⟨after, hafter, ?_⟩
    have hdeliver : Progress.deliver v place (⟨opened, .map acc (some (k, keyPlace))⟩ :: stack) =
        .ok (.reading (⟨opened, .map (acc ++ [(k, v)]) none⟩ :: stack)) := by
      simp [Progress.deliver, Frame.add, hlookup, hinsert]
    rw [List.append_assoc, List.singleton_append] at hrest
    rw [hkey, ← hrest]
    -- Taking in a key never fails, so reading goes on at once.
    show middle.readForm (⟨opened, .map acc (some (k, keyPlace))⟩ :: stack) = _
    rw [hvalue, hdeliver]
    rfl

end Sequence

mutual

/-- The text of a readable value is read as the value. -/
theorem reads : (v : Value) → v.isReadable = true → v.isSorted = true → v.Reads
  | .nil, _, _ => reads_atom (a := .nil) rfl
  | .bool b, _, _ => reads_atom (a := .bool b) rfl
  | .int n, _, _ => reads_atom (a := .int n) rfl
  | .float x, h, _ => reads_atom (a := .float x) h
  | .char c, _, _ => reads_atom (a := .char c) rfl
  | .string s, _, _ => reads_atom (a := .string s) rfl
  | .symbol s, h, _ => reads_atom (a := .symbol s.name) h
  | .keyword k, h, _ => reads_atom (a := .keyword k.name) h
  | .list items, h, horder => by
    have hitems := reads_items items h horder
    refine reads_sequence .list rfl rfl rfl (fun _ _ _ _ => rfl) ?_ hitems
    intro opened place
    simp [Frame.finish]
  | .vector items, h, horder => by
    have hitems := reads_items items h horder
    refine reads_sequence .vector rfl rfl rfl (fun _ _ _ _ => rfl) ?_ hitems
    intro opened place
    simp [Frame.finish]
  | .set items, h, horder => by
    obtain ⟨hset, horder⟩ := Bool.and_eq_true_iff.1 horder
    have hitems := reads_items items h horder
    refine reads_sequence .set rfl rfl rfl (fun _ _ _ _ => rfl) ?_ hitems
    intro opened place
    simp [Frame.finish, ofItems_of_increasing (of_decide_eq_true hset)]
  | .map entries, h, horder => by
    obtain ⟨hmap, horder⟩ := Bool.and_eq_true_iff.1 horder
    have hentries := reads_entries entries h horder
    have hfinish : ∀ opened place, Frame.finish ⟨opened, .map entries none⟩ place = .ok (.map entries) :=
      fun _ _ => rfl
    apply reads_collection .map rfl rfl hfinish
    · exact fun rest => solid_entryChars hentries
    · intro c opened stack rest hc
      exact readForm_entries hentries [] (of_decide_eq_true hmap) c opened stack hc

theorem reads_items : (items : List Value) → everyItem hasSpelling items = true →
    everyItem inOrder items = true → ∀ v ∈ items, v.Reads
  | [], _, _ => by simp
  | v :: rest, h, horder => by
    obtain ⟨hv, hrest⟩ := Bool.and_eq_true_iff.1 h
    obtain ⟨horder, horder'⟩ := Bool.and_eq_true_iff.1 horder
    exact List.forall_mem_cons.2 ⟨reads v hv horder, reads_items rest hrest horder'⟩

theorem reads_entries : (entries : List (Value × Value)) → everyEntry hasSpelling entries = true →
    everyEntry inOrder entries = true → ∀ entry ∈ entries, entry.1.Reads ∧ entry.2.Reads
  | [], _, _ => by simp
  | (k, v) :: rest, h, horder => by
    obtain ⟨hk, h⟩ := Bool.and_eq_true_iff.1 h
    obtain ⟨hv, hrest⟩ := Bool.and_eq_true_iff.1 h
    obtain ⟨hkorder, horder⟩ := Bool.and_eq_true_iff.1 horder
    obtain ⟨hvorder, horder'⟩ := Bool.and_eq_true_iff.1 horder
    exact List.forall_mem_cons.2
      ⟨⟨reads k hk hkorder, reads v hv hvorder⟩, reads_entries rest hrest horder'⟩

end

end Value

/-! ## Several values -/

namespace Cursor

theorem readAll_of_read_none {c after : Cursor} (h : c.read = (.ok none, after)) :
    c.readAll = .ok [] := by
  rw [readAll]
  split <;> simp_all

/-- The forms of a text are the first one and those of what is left. -/
theorem readAll_of_read_some {c after : Cursor} {form : Value}
    (h : c.read = (.ok (some form), after)) : c.readAll = after.readAll.map (form :: ·) := by
  rw [readAll]
  split <;> simp_all

/-- Where layout is all that is left, there are no more forms. -/
theorem read_of_layout {c : Cursor} (h : c.skipLayout.rest = []) : c.read = (.ok none, c.skipLayout) := by
  have hnext : c.next = (.ok none, c.skipLayout) := by rw [next, takeToken, h]
  rw [read, readForm_of_next_none [] hnext]
  rfl

theorem readAll_of_layout {c : Cursor} (h : c.skipLayout.rest = []) : c.readAll = .ok [] :=
  readAll_of_read_none (read_of_layout h)

/-- A readable value is read off the front, and what follows it is read from the same place whether or
not the rest of the line was skipped. -/
theorem read_of_reads {c : Cursor} {v : Value} {rest : List Char} (h : v.Reads)
    (hrest : Terminated rest) (hc : c.skipLayout.rest = v.chars ++ rest) :
    ∃ after : Cursor, after.skipLayout.rest = (Text.splitLayout false rest).2 ∧
      c.read = (.ok (some v), after) := by
  obtain ⟨after, place, hafter, hform⟩ := h.reads c [] rest hrest hc
  refine ⟨after.skipTrailer, ?_, ?_⟩
  · have hskip := Text.splitLayout_splitTrailer false after.rest
    rw [hafter] at hskip
    rw [← hskip, ← hafter]
    rfl
  · rw [read, hform]
    rfl

/-- The text of a value in front of others is read as this value and the others. -/
theorem readAll_of_reads {c : Cursor} {v : Value} {rest : List Char} (h : v.Reads)
    (hrest : Terminated rest) (hc : c.skipLayout.rest = v.chars ++ rest) :
    ∃ after : Cursor, after.skipLayout.rest = (Text.splitLayout false rest).2 ∧
      c.readAll = after.readAll.map (v :: ·) := by
  obtain ⟨after, hafter, hread⟩ := read_of_reads h hrest hc
  exact ⟨after, hafter, readAll_of_read_some hread⟩

end Cursor

namespace Value

/-- The texts of some values, with a separator of its own between each two that follow each other. -/
def join (separators : Nat → Separator) : List Value → String
  | [] => ""
  | [v] => v.print
  | v :: w :: rest =>
    v.print ++ ((separators 0).text ++ join (fun i => separators (i + 1)) (w :: rest))

/-- Values that are written with separators between them begin with no layout. -/
theorem solid_join {vs : List Value} (h : ∀ v ∈ vs, v.Reads) (separators : Nat → Separator) :
    Solid (join separators vs).toList := by
  fun_cases join separators vs with
  | case1 =>
    intro c hc
    cases hc
  | case2 v =>
    have hsolid := (h v List.mem_cons_self).solid []
    rwa [List.append_nil, ← String.toList_ofList (l := v.chars)] at hsolid
  | case3 v w rest =>
    rw [String.toList_append, print, String.toList_ofList]
    exact (h v List.mem_cons_self).solid _

/-- By induction on the values, what is written with separators is read back as the values. -/
theorem readAll_of_join {vs : List Value} (h : ∀ v ∈ vs, v.Reads) (separators : Nat → Separator)
    {c : Cursor} (hc : c.skipLayout.rest = (join separators vs).toList) : c.readAll = .ok vs := by
  induction vs generalizing separators c with
  | nil => exact Cursor.readAll_of_layout hc
  | cons v others ih =>
    have hv : v.Reads := h v List.mem_cons_self
    have hothers : ∀ w ∈ others, w.Reads := fun w hw => h w (List.mem_cons_of_mem v hw)
    cases others with
    | nil =>
      -- The last value ends with the text.
      rw [join, print, String.toList_ofList, ← List.append_nil v.chars] at hc
      obtain ⟨after, hafter, hread⟩ := Cursor.readAll_of_reads hv Text.terminated_nil hc
      rw [hread, ih hothers separators hafter]
      rfl
    | cons w rest =>
      -- The separator ends the value, and is skipped before the next one.
      rw [join, print, String.toList_append, String.toList_append, String.toList_ofList] at hc
      obtain ⟨after, hafter, hread⟩ :=
        Cursor.readAll_of_reads hv ((separators 0).terminated _) hc
      rw [Text.splitLayout_layout (separators 0).layout,
        Text.splitLayout_of_solid (solid_join hothers _)] at hafter
      rw [hread, ih hothers _ hafter]
      rfl

/-- The texts of readable values, with any layout between them, read as these values. -/
theorem readAll_join (vs : List Value) (separators : Nat → Separator)
    (hreadable : ∀ v ∈ vs, v.isReadable = true) (hsorted : ∀ v ∈ vs, v.isSorted = true) :
    readAll (join separators vs) = .ok vs := by
  have hreads : ∀ v ∈ vs, v.Reads := fun v hv => reads v (hreadable v hv) (hsorted v hv)
  apply readAll_of_join hreads separators
  exact Cursor.rest_skipLayout .nil (solid_join hreads separators) rfl

/-- Both zeros in one set, a map under a map key, names that nearly are numbers, and a comment between
values that would otherwise run together. -/
theorem readAll_join_mixed :
    let separator : Separator :=
      ⟨"; (\n,", @Layout.comment [' ', '('] [','] (by decide) (.blank (by decide) .nil), by decide⟩
    let vs : List Value :=
      [.set [.int (-9223372036854775808), .float ⟨0x8000000000000000⟩, .float ⟨0⟩],
        .map [(.char ';', .list []), (.map [(.nil, .nil)], .vector [.symbol ⟨"-"⟩, .keyword ⟨"1"⟩])],
        .float ⟨0x3FB999999999999A⟩, .string "\"\n", .char '\r', .symbol ⟨"+a"⟩]
    (∀ v ∈ vs, v.isReadable = true) ∧ (∀ v ∈ vs, v.isSorted = true) ∧
      readAll (join (fun _ => separator) vs) = .ok vs := by
  intro separator vs
  have hreadable : ∀ v ∈ vs, v.isReadable = true := by decide
  have hsorted : ∀ v ∈ vs, v.isSorted = true := by decide
  exact ⟨hreadable, hsorted, readAll_join vs _ hreadable hsorted⟩

end Value

end SmallLisp
