import SmallLisp.Proofs.Reader.Sealed
import SmallLisp.Proofs.Value.Collection

/-!
# The reader accepts exactly its grammar

A form is an atom, or forms between the brackets of a list, a vector or a set, or keys and values in turn
between those of a map, whose keys are distinct. `Writes` is this grammar over tokens, with the value of
each derivation. The reader keeps a stack of open collections; `Opens` says which tokens a stack accounts for,
one token keeps that account (`step_accounts`), and so what is read is derived (`writes_of_readForm`). The
other way round, the tokens of a derivation are taken as its value wherever they stand (`takes_of_writes`).
Main statement: `readAll_iff_writesAll`.
-/

namespace SmallLisp

/-! ## The grammar -/

/-- Some tokens and the value they are taken for. -/
structure Phrase where
  tokens : List Token
  value : Value

/-- Tokens that are a form, and the value of that form. -/
inductive Writes : List Token → Value → Prop where
  | atom (a : Atom) : Writes [.atom a] a.toValue
  | list (items : List Phrase) (hitems : ∀ item ∈ items, Writes item.tokens item.value) :
      Writes (.opening .list :: (items.flatMap Phrase.tokens ++ [.closing .paren]))
        (.list (items.map Phrase.value))
  | vector (items : List Phrase) (hitems : ∀ item ∈ items, Writes item.tokens item.value) :
      Writes (.opening .vector :: (items.flatMap Phrase.tokens ++ [.closing .bracket]))
        (.vector (items.map Phrase.value))
  | set (items : List Phrase) (hitems : ∀ item ∈ items, Writes item.tokens item.value) :
      Writes (.opening .set :: (items.flatMap Phrase.tokens ++ [.closing .brace]))
        (Value.ofItems (items.map Phrase.value))
  | map (entries : List (Phrase × Phrase))
      (hkeys : ∀ entry ∈ entries, Writes entry.1.tokens entry.1.value)
      (hvalues : ∀ entry ∈ entries, Writes entry.2.tokens entry.2.value)
      (hdistinct : entries.Pairwise fun a b => (a.1.value == b.1.value) = false) :
      Writes
        (.opening .map :: (entries.flatMap (fun entry => entry.1.tokens ++ entry.2.tokens) ++
          [.closing .brace]))
        (Value.ofEntries (entries.map fun entry => (entry.1.value, entry.2.value)))

/-- Tokens that are forms, one after the other, and the values of these forms. -/
def WritesAll (tokens : List Token) (values : List Value) : Prop :=
  ∃ phrases : List Phrase, (∀ phrase ∈ phrases, Writes phrase.tokens phrase.value) ∧
    tokens = phrases.flatMap Phrase.tokens ∧ values = phrases.map Phrase.value

/-- Tokens that are the keys and values of a map, and the entries they make. -/
def WritesEntries (tokens : List Token) (entries : List (Value × Value)) : Prop :=
  ∃ phrases : List (Phrase × Phrase),
    (∀ phrase ∈ phrases, Writes phrase.1.tokens phrase.1.value) ∧
    (∀ phrase ∈ phrases, Writes phrase.2.tokens phrase.2.value) ∧
    phrases.Pairwise (fun a b => (a.1.value == b.1.value) = false) ∧
    tokens = phrases.flatMap (fun phrase => phrase.1.tokens ++ phrase.2.tokens) ∧
    Value.map entries = Value.ofEntries (phrases.map fun phrase => (phrase.1.value, phrase.2.value))

theorem WritesAll.nil : WritesAll [] [] :=
  ⟨[], by simp, rfl, rfl⟩

theorem WritesAll.cons {tokens more : List Token} {values : List Value} {v : Value}
    (h : WritesAll more values) (hv : Writes tokens v) : WritesAll (tokens ++ more) (v :: values) := by
  obtain ⟨phrases, hphrases, rfl, rfl⟩ := h
  exact ⟨⟨tokens, v⟩ :: phrases, List.forall_mem_cons.2 ⟨hv, hphrases⟩, rfl, rfl⟩

theorem WritesAll.concat {tokens more : List Token} {values : List Value} {v : Value}
    (h : WritesAll tokens values) (hv : Writes more v) :
    WritesAll (tokens ++ more) (values ++ [v]) := by
  obtain ⟨phrases, hphrases, rfl, rfl⟩ := h
  refine ⟨phrases ++ [⟨more, v⟩], ?_, by simp, by simp⟩
  exact List.forall_mem_append.2 ⟨hphrases, List.forall_mem_singleton.2 hv⟩

/-- One more entry, with a new key, behind some entries. -/
theorem WritesEntries.concat {tokens us ws : List Token} {entries : List (Value × Value)}
    {key value : Value} (h : WritesEntries tokens entries) (hkey : Writes us key)
    (hvalue : Writes ws value) (hnew : Value.lookup? key entries = none) :
    WritesEntries (tokens ++ (us ++ ws)) (Value.insertEntry key value entries) := by
  obtain ⟨phrases, hkeys, hvalues, hdistinct, rfl, hentries⟩ := h
  rw [Value.lookup?_eq_none_iff hentries.symm] at hnew
  refine ⟨phrases ++ [(⟨us, key⟩, ⟨ws, value⟩)], ?_, ?_, ?_, by simp, ?_⟩
  · exact List.forall_mem_append.2 ⟨hkeys, List.forall_mem_singleton.2 hkey⟩
  · exact List.forall_mem_append.2 ⟨hvalues, List.forall_mem_singleton.2 hvalue⟩
  · refine List.pairwise_append.2 ⟨hdistinct, List.pairwise_singleton _ _, ?_⟩
    intro phrase hphrase other hother
    cases List.mem_singleton.1 hother
    exact hnew _ (List.mem_map_of_mem hphrase)
  · rw [List.map_append, List.map_singleton]
    exact (Value.ofEntries_concat hentries.symm key value).symm

/-! ## What is read is derived -/

/-- The tokens that were read of an open collection. -/
def Partial.Holds (tokens : List Token) : Partial → Prop
  | .list items => WritesAll tokens items.reverse
  | .vector items => WritesAll tokens items.reverse
  | .set items => WritesAll tokens items.reverse
  | .map entries none => WritesEntries tokens entries
  | .map entries (some (key, _)) =>
    ∃ us ws, tokens = us ++ ws ∧ WritesEntries us entries ∧ Writes ws key

/-- The tokens that were read to open the collections of a stack and to fill them so far. -/
inductive Opens : List Token → List Frame → Prop where
  | nil : Opens [] []
  | cons {outerTokens tokens : List Token} {frame : Frame} {outer : List Frame}
      (houter : Opens outerTokens outer) (hframe : frame.content.Holds tokens) :
      Opens (outerTokens ++ .opening frame.shape :: tokens) (frame :: outer)

/-- The tokens that the progress of a form accounts for. -/
def Progress.Accounts (tokens : List Token) : Progress → Prop
  | .done form => Writes tokens form
  | .reading stack => Opens tokens stack

/-- A collection that was just opened accounts for no tokens. -/
theorem Partial.holds_empty (shape : Shape) : (Partial.empty shape).Holds [] := by
  cases shape with
  | map => exact ⟨[], by simp, by simp, List.Pairwise.nil, rfl, rfl⟩
  | _ => exact WritesAll.nil

/-- Adding a value adds its tokens and keeps the kind of the collection. -/
theorem Frame.holds_add {frame frame' : Frame} {tokens more : List Token} {v : Value}
    {start : Text.Location} (h : frame.content.Holds tokens) (hv : Writes more v)
    (hadd : frame.add v start = .ok frame') :
    frame'.shape = frame.shape ∧ frame'.content.Holds (tokens ++ more) := by
  obtain ⟨opened, content⟩ := frame
  cases content
  case map entries pending =>
    cases pending with
    | none =>
      cases hadd
      exact ⟨rfl, tokens, more, rfl, h, hv⟩
    | some waiting =>
      obtain ⟨key, place⟩ := waiting
      obtain ⟨us, ws, rfl, hentries, hkey⟩ := h
      simp only [Frame.add] at hadd
      split at hadd
      · cases hadd
      · next hnew =>
        cases hadd
        refine ⟨rfl, ?_⟩
        rw [List.append_assoc]
        exact hentries.concat hkey hv (by simpa using hnew)
  -- the three kinds of sequence hold their elements newest first
  all_goals
    cases hadd
    refine ⟨rfl, ?_⟩
    simpa only [Partial.Holds, List.reverse_cons] using WritesAll.concat h hv

/-- Closing a collection makes a form of its tokens and its brackets. -/
theorem Frame.writes_of_finish {frame : Frame} {tokens : List Token} {v : Value}
    {place : Text.Location} (h : frame.content.Holds tokens) (hfinish : frame.finish place = .ok v) :
    Writes (.opening frame.shape :: (tokens ++ [.closing frame.shape.closer])) v := by
  obtain ⟨opened, content⟩ := frame
  cases content with
  | list items =>
    cases hfinish
    obtain ⟨phrases, hphrases, rfl, hvalues⟩ := h
    rw [hvalues]
    exact .list phrases hphrases
  | vector items =>
    cases hfinish
    obtain ⟨phrases, hphrases, rfl, hvalues⟩ := h
    rw [hvalues]
    exact .vector phrases hphrases
  | set items =>
    cases hfinish
    obtain ⟨phrases, hphrases, rfl, hvalues⟩ := h
    rw [hvalues]
    exact .set phrases hphrases
  | map entries pending =>
    cases pending with
    | none =>
      cases hfinish
      obtain ⟨phrases, hkeys, hvalues, hdistinct, rfl, hentries⟩ := h
      rw [hentries]
      exact .map phrases hkeys hvalues hdistinct
    | some waiting => cases hfinish

namespace Progress

variable {tokens more : List Token} {stack : List Frame} {progress : Progress}

/-- A form goes into the innermost collection, and the account has its tokens. -/
theorem deliver_accounts {v : Value} {start : Text.Location} (h : Opens tokens stack)
    (hv : Writes more v) (hdeliver : deliver v start stack = .ok progress) :
    progress.Accounts (tokens ++ more) := by
  cases h with
  | nil =>
    cases hdeliver
    exact hv
  | @cons outerTokens tokens frame outer houter hframe =>
    simp only [deliver] at hdeliver
    split at hdeliver
    · next frame' hadd =>
      cases hdeliver
      obtain ⟨hshape, hholds⟩ := Frame.holds_add hframe hv hadd
      have hopens := Opens.cons houter hholds
      rw [hshape] at hopens
      simpa only [Accounts, List.append_assoc, List.cons_append] using hopens
    · cases hdeliver

/-- One more token is accounted for. -/
theorem step_accounts {token : Token} {place : Text.Location} (h : Opens tokens stack)
    (hstep : step stack token place = .ok progress) : progress.Accounts (tokens ++ [token]) := by
  cases token with
  | opening shape =>
    cases hstep
    have hshape : (Frame.mk place (.empty shape)).shape = shape := by cases shape <;> rfl
    have hopens : Opens (tokens ++ [.opening (Frame.mk place (.empty shape)).shape])
        (⟨place, .empty shape⟩ :: stack) := .cons h (Partial.holds_empty shape)
    rwa [hshape] at hopens
  | atom a => exact deliver_accounts h (.atom a) hstep
  | closing closer =>
    cases h with
    | nil => cases hstep
    | @cons outerTokens tokens frame outer houter hframe =>
      -- the bracket closes the innermost collection, whose value goes to the one around it
      simp only [step, close] at hstep
      split at hstep
      · next hcloser =>
        split at hstep
        · next v hfinish =>
          have hv := Frame.writes_of_finish hframe hfinish
          rw [hcloser] at hv
          simpa only [List.append_assoc, List.cons_append] using deliver_accounts houter hv hstep
        · cases hstep
      · cases hstep

end Progress

namespace Cursor

/-! ## Tokens and forms of one text -/

theorem tokens_of_next_error {c after : Cursor} {e : ReadError} (h : c.next = (.error e, after)) :
    c.tokens = (.error e, after) := by
  rw [tokens]
  split <;> simp_all

theorem tokens_of_next_none {c after : Cursor} (h : c.next = (.ok none, after)) :
    c.tokens = (.ok [], after) := by
  rw [tokens]
  split <;> simp_all

/-- The tokens of a text are the first one and those of what is left. -/
theorem tokens_of_next_some {c after : Cursor} {token : Token}
    (h : c.next = (.ok (some token), after)) :
    c.tokens = (after.tokens.1.map (token :: ·), after.tokens.2) := by
  rw [tokens]
  split <;> simp_all

/-- The tokens of a text start with the next one. -/
theorem next_of_tokens {c : Cursor} {tokens : List Token} (h : c.tokens.1 = .ok tokens) :
    ∃ after : Cursor, match tokens with
      | [] => c.next = (.ok none, after)
      | token :: rest => c.next = (.ok (some token), after) ∧ after.tokens.1 = .ok rest := by
  rcases hnext : c.next with ⟨result, after⟩
  refine ⟨after, ?_⟩
  match result with
  | .error e =>
    rw [tokens_of_next_error hnext] at h
    cases h
  | .ok none =>
    rw [tokens_of_next_none hnext] at h
    cases h
    rfl
  | .ok (some first) =>
    rw [tokens_of_next_some hnext] at h
    cases hafter : after.tokens.1 with
    | error e =>
      rw [hafter] at h
      cases h
    | ok others =>
      rw [hafter] at h
      cases h
      exact ⟨rfl, rfl⟩

/-- The rest of a line that is skipped after a form is layout before the next token. -/
theorem skipLayout_skipTrailer (c : Cursor) : c.skipTrailer.skipLayout = c.skipLayout := by
  have hrest := Text.splitLayout_splitTrailer false c.rest
  have hfront : (Text.splitTrailer false c.rest).1 ++
      (Text.splitLayout false (Text.splitTrailer false c.rest).2).1 =
        (Text.splitLayout false c.rest).1 := by
    rw [← List.append_left_inj (Text.splitLayout false c.rest).2, Text.splitLayout_append, ← hrest,
      List.append_assoc, Text.splitLayout_append, Text.splitTrailer_append]
  simp only [skipLayout, skipTrailer, hrest, ← hfront, Text.Position.advance_append]

/-- Skipping the rest of a line takes no token. -/
theorem tokens_skipTrailer (c : Cursor) : c.skipTrailer.tokens = c.tokens := by
  have hnext : c.skipTrailer.next = c.next := by
    rw [next, skipLayout_skipTrailer, next]
  rcases hresult : c.next with ⟨result, after⟩
  rw [hresult] at hnext
  cases result with
  | error e => rw [tokens_of_next_error hnext, tokens_of_next_error hresult]
  | ok found =>
    cases found with
    | none => rw [tokens_of_next_none hnext, tokens_of_next_none hresult]
    | some token => rw [tokens_of_next_some hnext, tokens_of_next_some hresult]

/-- A form that is read is derived from the tokens it takes off the front of the text. -/
theorem writes_of_readForm {tokens : List Token} {stack : List Frame} {c after : Cursor} {v : Value}
    (h : Opens tokens stack) (hread : c.readForm stack = (.ok (some v), after)) :
    ∃ taken, Writes (tokens ++ taken) v ∧ c.tokens.1 = after.tokens.1.map (taken ++ ·) := by
  fun_induction readForm stack c generalizing tokens with
  | case1 stack c e next hnext => cases hread
  | case2 stack c next hnext =>
    cases stack with
    | nil => cases hread
    | cons frame outer => cases hread
  | case3 stack c token next hnext e hstep => cases hread
  | case4 stack c token next hnext form hstep =>
    cases hread
    refine ⟨[token], Progress.step_accounts h hstep, ?_⟩
    rw [tokens_of_next_some hnext]
    rfl
  | case5 stack c token next hnext inner hstep ih =>
    obtain ⟨taken, hwrites, htokens⟩ := ih (Progress.step_accounts h hstep) hread
    refine ⟨token :: taken, by simpa using hwrites, ?_⟩
    rw [tokens_of_next_some hnext, htokens]
    cases after.tokens.1 <;> rfl

/-- A read is a form and the rest of its line. -/
theorem exists_readForm_of_read_some {c after : Cursor} {form : Value}
    (h : c.read = (.ok (some form), after)) :
    ∃ last : Cursor, c.readForm [] = (.ok (some form), last) ∧ after = last.skipTrailer := by
  unfold read at h
  split at h
  · next form' last hform =>
    cases h
    exact ⟨last, hform, rfl⟩
  · next hform => exact absurd h (hform form after)

/-- Forms that are read one after the other are derived from the tokens of the text. -/
theorem writesAll_of_readAll {c : Cursor} {values : List Value} (h : c.readAll = .ok values) :
    ∃ tokens, c.tokens.1 = .ok tokens ∧ WritesAll tokens values := by
  fun_induction readAll c generalizing values with
  | case1 c e after hread => cases h
  | case2 c after hread =>
    cases h
    have hlayout : c.skipLayout.rest = [] := skipLayout_rest_of_read_none (by rw [hread])
    have hnext : c.next = (.ok none, c.skipLayout) := by rw [next, takeToken, hlayout]
    exact ⟨[], by rw [tokens_of_next_none hnext], .nil⟩
  | case3 c form after hread ih =>
    obtain ⟨last, hform, rfl⟩ := exists_readForm_of_read_some hread
    obtain ⟨taken, hwrites, htokens⟩ := writes_of_readForm .nil hform
    cases hothers : last.skipTrailer.readAll with
    | error e =>
      rw [hothers] at h
      cases h
    | ok others =>
      rw [hothers] at h
      cases h
      obtain ⟨rest, hrest, hall⟩ := ih hothers
      -- skipping the rest of the line skips no token
      rw [tokens_skipTrailer] at hrest
      exact ⟨taken ++ rest, by rw [htokens, hrest]; rfl, hall.cons hwrites⟩

/-! ## What is derived is read -/

/-- Wherever the tokens stand, they are taken off the text and the value is handed to the collections that
are open. -/
def Takes (tokens : List Token) (v : Value) : Prop :=
  ∀ (c : Cursor) (stack : List Frame) (rest : List Token), c.tokens.1 = .ok (tokens ++ rest) →
    ∃ (after : Cursor) (place : Text.Location), after.tokens.1 = .ok rest ∧
      c.readForm stack = after.resume (Progress.deliver v place stack)

/-- The first token of a text is handed to the open collections. -/
theorem readForm_of_tokens {c : Cursor} {token : Token} {rest : List Token}
    (h : c.tokens.1 = .ok (token :: rest)) (stack : List Frame) :
    ∃ (after : Cursor) (place : Text.Location), after.tokens.1 = .ok rest ∧
      c.readForm stack = after.resume (Progress.step stack token place) := by
  obtain ⟨after, hnext, hafter⟩ := next_of_tokens h
  refine ⟨after, after.tokenStart, hafter, ?_⟩
  rw [readForm_of_next_some stack hnext]
  unfold resume
  rfl

/-- A collection is taken if the tokens between its brackets fill an open frame with its parts. -/
theorem takes_collection {v : Value} (shape : Shape) {content : Partial} {body : List Token}
    (hshape : content.shape = shape)
    (hfinish : ∀ opened place, Frame.finish ⟨opened, content⟩ place = .ok v)
    (hbody : ∀ (c : Cursor) (opened : Text.Location) (stack : List Frame) (rest : List Token),
      c.tokens.1 = .ok (body ++ rest) → ∃ after : Cursor, after.tokens.1 = .ok rest ∧
        c.readForm (⟨opened, .empty shape⟩ :: stack) = after.readForm (⟨opened, content⟩ :: stack)) :
    Takes (.opening shape :: (body ++ [.closing shape.closer])) v := by
  intro c stack rest hc
  rw [List.cons_append, List.append_assoc, List.singleton_append] at hc
  -- an empty frame is put on the stack, filled, and taken off again
  obtain ⟨inside, opened, hinside, hopen⟩ := readForm_of_tokens hc stack
  obtain ⟨last, hlast, hfill⟩ := hbody inside opened stack _ hinside
  obtain ⟨after, place, hafter, hclose⟩ := readForm_of_tokens hlast (⟨opened, content⟩ :: stack)
  have hstep : Progress.step (⟨opened, content⟩ :: stack) (.closing shape.closer) place =
      Progress.deliver v opened stack := by
    have hcloser : (Frame.mk opened content).shape.closer = shape.closer := congrArg _ hshape
    simp only [Progress.step, Progress.close, hcloser, if_true, hfinish]
  refine ⟨after, opened, hafter, ?_⟩
  rw [hopen, ← hstep, ← hclose, ← hfill]
  rfl

/-- An open sequence takes in its elements one after the other. -/
theorem readForm_phrases {content : List Value → Partial}
    (hadd : ∀ opened acc v start,
      Frame.add ⟨opened, content acc⟩ v start = .ok ⟨opened, content (v :: acc)⟩)
    {items : List Phrase} (h : ∀ item ∈ items, Takes item.tokens item.value) (acc : List Value)
    {c : Cursor} (opened : Text.Location) (stack : List Frame) {rest : List Token}
    (hc : c.tokens.1 = .ok (items.flatMap Phrase.tokens ++ rest)) :
    ∃ after : Cursor, after.tokens.1 = .ok rest ∧
      c.readForm (⟨opened, content acc⟩ :: stack) =
        after.readForm (⟨opened, content ((items.map Phrase.value).reverse ++ acc)⟩ :: stack) := by
  induction items generalizing acc c with
  | nil => exact ⟨c, hc, rfl⟩
  | cons item others ih =>
    rw [List.flatMap_cons, List.append_assoc] at hc
    obtain ⟨next, place, hnext, hread⟩ :=
      h item List.mem_cons_self c (⟨opened, content acc⟩ :: stack) _ hc
    obtain ⟨after, hafter, hrest⟩ :=
      ih (fun other hother => h other (List.mem_cons_of_mem item hother)) (item.value :: acc) hnext
    refine ⟨after, hafter, ?_⟩
    rw [hread, Progress.deliver, hadd, List.map_cons, List.reverse_cons, List.append_assoc,
      List.singleton_append, ← hrest]
    rfl

/-- The tokens of a list, vector or set are taken as it when those of its elements are. -/
theorem takes_sequence {v : Value} (shape : Shape) {content : List Value → Partial}
    {items : List Phrase} (hempty : .empty shape = content [])
    (hshape : (content (items.map Phrase.value).reverse).shape = shape)
    (hadd : ∀ opened acc w start,
      Frame.add ⟨opened, content acc⟩ w start = .ok ⟨opened, content (w :: acc)⟩)
    (hfinish : ∀ opened place,
      Frame.finish ⟨opened, content (items.map Phrase.value).reverse⟩ place = .ok v)
    (hitems : ∀ item ∈ items, Takes item.tokens item.value) :
    Takes (.opening shape :: (items.flatMap Phrase.tokens ++ [.closing shape.closer])) v := by
  apply takes_collection shape hshape hfinish
  intro c opened stack rest hc
  have hfill := readForm_phrases hadd hitems [] opened stack hc
  rwa [List.append_nil, ← hempty] at hfill

/-- An open map takes in its entries one after the other, as each key differs from those before it. -/
theorem readForm_entries {entries : List (Phrase × Phrase)}
    (hkeys : ∀ entry ∈ entries, Takes entry.1.tokens entry.1.value)
    (hvalues : ∀ entry ∈ entries, Takes entry.2.tokens entry.2.value) {held : List (Value × Value)}
    (hfresh : Value.Fresh held (entries.map fun entry => (entry.1.value, entry.2.value))) {c : Cursor}
    (opened : Text.Location) (stack : List Frame) {rest : List Token}
    (hc : c.tokens.1 =
      .ok (entries.flatMap (fun entry => entry.1.tokens ++ entry.2.tokens) ++ rest)) :
    ∃ after : Cursor, after.tokens.1 = .ok rest ∧
      c.readForm (⟨opened, .map held none⟩ :: stack) =
        after.readForm (⟨opened, .map ((entries.map fun entry => (entry.1.value, entry.2.value)).foldl
          (fun acc entry => Value.insertEntry entry.1 entry.2 acc) held) none⟩ :: stack) := by
  induction entries generalizing held c with
  | nil => exact ⟨c, hc, rfl⟩
  | cons entry others ih =>
    obtain ⟨key, value⟩ := entry
    rw [List.flatMap_cons, List.append_assoc, List.append_assoc] at hc
    obtain ⟨hkey, hkeys⟩ := List.forall_mem_cons.1 hkeys
    obtain ⟨hvalue, hvalues⟩ := List.forall_mem_cons.1 hvalues
    obtain ⟨hnew, hothers⟩ := Value.fresh_cons_iff.1 hfresh
    -- The key waits in the frame; with the value the entry goes into the map.
    obtain ⟨middle, keyPlace, hmiddle, hreadKey⟩ := hkey c (⟨opened, .map held none⟩ :: stack) _ hc
    obtain ⟨last, place, hlast, hreadValue⟩ := hvalue middle
      (⟨opened, .map held (some (key.value, keyPlace))⟩ :: stack) _ hmiddle
    obtain ⟨after, hafter, hrest⟩ := ih hkeys hvalues hothers hlast
    refine ⟨after, hafter, ?_⟩
    have hdeliver : Progress.deliver value.value place
        (⟨opened, .map held (some (key.value, keyPlace))⟩ :: stack) =
          .ok (.reading (⟨opened, .map (Value.insertEntry key.value value.value held) none⟩ :: stack)) := by
      simp [Progress.deliver, Frame.add, hnew]
    rw [hreadKey, List.map_cons, List.foldl_cons, ← hrest]
    show middle.readForm (⟨opened, .map held (some (key.value, keyPlace))⟩ :: stack) = _
    rw [hreadValue, hdeliver]
    rfl

/-- The tokens of a form are taken as its value. -/
theorem takes_of_writes {tokens : List Token} {v : Value} (h : Writes tokens v) : Takes tokens v := by
  induction h with
  | atom a =>
    intro c stack rest hc
    exact readForm_of_tokens hc stack
  | list items hitems ih =>
    refine takes_sequence .list rfl rfl (fun _ _ _ _ => rfl) ?_ ih
    intro opened place
    simp [Frame.finish]
  | vector items hitems ih =>
    refine takes_sequence .vector rfl rfl (fun _ _ _ _ => rfl) ?_ ih
    intro opened place
    simp [Frame.finish]
  | set items hitems ih =>
    refine takes_sequence .set rfl rfl (fun _ _ _ _ => rfl) ?_ ih
    intro opened place
    simp [Frame.finish]
  | map entries hkeys hvalues hdistinct ihkeys ihvalues =>
    have hfinish : ∀ opened place, Frame.finish ⟨opened,
        .map ((entries.map fun entry => (entry.1.value, entry.2.value)).foldl
          (fun acc entry => Value.insertEntry entry.1 entry.2 acc) []) none⟩ place =
          .ok (Value.ofEntries (entries.map fun entry => (entry.1.value, entry.2.value))) :=
      fun _ _ => rfl
    refine takes_collection .map rfl hfinish ?_
    intro c opened stack rest hc
    have hfresh : Value.Fresh [] (entries.map fun entry => (entry.1.value, entry.2.value)) :=
      Value.fresh_nil_iff.2 (List.pairwise_map.2 hdistinct)
    exact readForm_entries ihkeys ihvalues hfresh opened stack hc

/-- The tokens of some forms are read as the values of these forms. -/
theorem readAll_of_writesAll {c : Cursor} {tokens : List Token} {values : List Value}
    (hc : c.tokens.1 = .ok tokens) (h : WritesAll tokens values) : c.readAll = .ok values := by
  obtain ⟨phrases, hphrases, rfl, rfl⟩ := h
  induction phrases generalizing c with
  | nil =>
    obtain ⟨after, hnext⟩ := next_of_tokens hc
    have hread : c.read = (.ok none, after) := by
      rw [read, readForm_of_next_none [] hnext]
      rfl
    exact readAll_of_read_none hread
  | cons phrase others ih =>
    rw [List.flatMap_cons] at hc
    obtain ⟨hphrase, hothers⟩ := List.forall_mem_cons.1 hphrases
    obtain ⟨after, place, hafter, hform⟩ := takes_of_writes hphrase c [] _ hc
    have hread : c.read = (.ok (some phrase.value), after.skipTrailer) := by
      rw [read, hform]
      rfl
    rw [← tokens_skipTrailer] at hafter
    rw [readAll_of_read_some hread, ih hothers hafter]
    rfl

end Cursor

namespace Value

/-- A text reads as some values exactly if its tokens are forms, one after the other, with these values;
and tokens are forms with at most one list of values. -/
theorem readAll_iff_writesAll (text : String) (values : List Value) :
    (readAll text = .ok values ↔
      ∃ tokens, (Cursor.ofString text).tokens.1 = .ok tokens ∧ WritesAll tokens values) ∧
    ∀ tokens others, (Cursor.ofString text).tokens.1 = .ok tokens → WritesAll tokens values →
      WritesAll tokens others → others = values := by
  refine ⟨⟨Cursor.writesAll_of_readAll, ?_⟩, ?_⟩
  · rintro ⟨tokens, htokens, h⟩
    exact Cursor.readAll_of_writesAll htokens h
  · intro tokens others htokens h hothers
    have hread := Cursor.readAll_of_writesAll htokens h
    rw [Cursor.readAll_of_writesAll htokens hothers] at hread
    exact Except.ok.inj hread

end Value

end SmallLisp
