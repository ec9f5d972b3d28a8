import SmallLisp.Proofs.Console.Chunks
import SmallLisp.Proofs.Value.ReadBack

/-!
# A script and the console run a text alike

A session evaluates a text up to its first error, a console reports errors and goes on. Up to the first
error both do the same: `Session.Runs` takes a session and a cursor to what they have become when some forms
were read and evaluated with success, and `Session.Ends` says why no further form succeeds. Evaluating a text
is such a run and its end (`evalFrom_outcome`), and the console goes through the same run
(`feedFrom_of_runs`). Main statement: `feed_agrees_evalText`.
-/

namespace SmallLisp

/-! ## What a transcript holds -/

namespace Event

def printed? : Event → Option String
  | .printed line => some line
  | _ => none

def value? : Event → Option Value
  | .value v => some v
  | _ => none

def reported? : Event → Option Error
  | .reported e => some e
  | _ => none

end Event

namespace Transcript

/-- The lines that programs printed, in order. -/
def printed (t : Transcript) : List String :=
  t.toList.filterMap Event.printed?

/-- The values written, in order. -/
def values (t : Transcript) : List Value :=
  t.toList.filterMap Event.value?

/-- The errors reported, in order. -/
def reports (t : Transcript) : List Error :=
  t.toList.filterMap Event.reported?

/-- A transcript of the given lines and values, without any error. -/
structure Shows (t : Transcript) (lines : List String) (written : List Value) : Prop where
  printed : t.printed = lines
  values : t.values = written
  reports : t.reports = []

namespace Shows

variable {t u : Transcript} {lines more : List String} {written others : List Value}

theorem nil : Shows #[] [] [] :=
  ⟨rfl, rfl, rfl⟩

/-- A transcript in two parts shows what the parts show. -/
theorem append (ht : Shows t lines written) (hu : Shows u more others) :
    Shows (t ++ u) (lines ++ more) (written ++ others) where
  printed := by rw [← ht.printed, ← hu.printed, Transcript.printed, Array.toList_append,
    List.filterMap_append]; rfl
  values := by rw [← ht.values, ← hu.values, Transcript.values, Array.toList_append,
    List.filterMap_append]; rfl
  reports := by
    have happend : (t ++ u).reports = t.reports ++ u.reports := by
      rw [Transcript.reports, Array.toList_append, List.filterMap_append]
      rfl
    rw [happend, ht.reports, hu.reports, List.append_nil]

/-- Printed lines are written as they are. -/
theorem ofLines (lines : Array String) : Shows (lines.map .printed) lines.toList [] where
  printed := by
    simp [Transcript.printed, List.filterMap_map, Function.comp_def, Event.printed?]
  values := by
    simp [Transcript.values, List.filterMap_map, Function.comp_def, Event.value?]
  reports := by
    simp [Transcript.reports, List.filterMap_map, Function.comp_def, Event.reported?]

end Shows

end Transcript

namespace Session

/-! ## Runs of forms that succeed -/

/-- Some forms are read and evaluated one after the other, all with success. Each of them is given with its
value, and `lines` are the lines they print. -/
inductive Runs : Session → Cursor → List (Value × Value) → List String → Session → Cursor → Prop where
  | stop (s : Session) (c : Cursor) : Runs s c [] [] s c
  | form {s last : Session} {c after stop : Cursor} {form v : Value} {done : List (Value × Value)}
      {lines : List String} (hread : c.read = (.ok (some form), after))
      (heval : (s.evalForm form).result = .ok v)
      (hrest : Runs (s.evalForm form).session after done lines last stop) :
      Runs s c ((form, v) :: done) ((s.evalForm form).printed.toList ++ lines) last stop

/-- No further form succeeds: the text ends, cannot be read, or holds a form that fails. The error is given
if there is one, with the session afterwards and the lines that the failing form prints. -/
inductive Ends (s : Session) (c : Cursor) : Option Error → Session → List String → Prop where
  | finished {after : Cursor} (hread : c.read = (.ok none, after)) : Ends s c none s []
  | unreadable {after : Cursor} {e : ReadError} (hread : c.read = (.error e, after)) :
      Ends s c (some (.read e)) s []
  | failed {after : Cursor} {form : Value} {e : Error} (hread : c.read = (.ok (some form), after))
      (heval : (s.evalForm form).result = .error e) :
      Ends s c (some e) (s.evalForm form).session (s.evalForm form).printed.toList

variable {s last final : Session} {c stop : Cursor} {done : List (Value × Value)}
  {lines extra : List String} {failure : Option Error}

/-- A form that fails leaves the environment alone. -/
theorem env_evalForm_of_error {form : Value} {e : Error} (h : (s.evalForm form).result = .error e) :
    (s.evalForm form).session.env = s.env := by
  unfold evalForm run at h ⊢
  split
  · next heval =>
    rw [heval] at h
    cases h
  · rfl

/-- However a run ends, the environment is the one after the last form that succeeded. -/
theorem Ends.env_eq (h : Ends s c failure final extra) : final.env = s.env := by
  cases h with
  | finished => rfl
  | unreadable => rfl
  | failed hread heval => exact env_evalForm_of_error heval

/-- Evaluating the text at a cursor runs forms until no further one succeeds. -/
theorem evalFrom_outcome (s : Session) (c : Cursor) (value : Value) (printed : Array String) :
    ∃ done lines last stop failure extra, Runs s c done lines last stop ∧
      Ends last stop failure (s.evalFrom c value printed).session extra ∧
      (s.evalFrom c value printed).printed.toList = printed.toList ++ (lines ++ extra) ∧
      (s.evalFrom c value printed).result =
        failure.elim (.ok ((done.map Prod.snd).getLastD value)) .error := by
  fun_induction evalFrom s c value printed with
  | case1 s c value printed e after hread =>
    exact ⟨[], [], s, c, _, [], .stop s c, .unreadable hread, by simp, rfl⟩
  | case2 s c value printed after hread =>
    exact ⟨[], [], s, c, _, [], .stop s c, .finished hread, by simp, rfl⟩
  | case3 s c value printed form after hread reply v heval ih =>
    obtain ⟨done, lines, last, stop, failure, extra, hruns, hends, hprinted, hresult⟩ := ih
    refine ⟨_, _, last, stop, failure, extra, .form hread heval hruns, hends, ?_, ?_⟩
    · rw [hprinted, Array.toList_append, List.append_assoc, List.append_assoc]
    · rw [hresult, List.map_cons, List.getLastD_cons]
  | case4 s c value printed form after hread reply e heval =>
    exact ⟨[], [], s, c, _, _, .stop s c, .failed hread heval, by simp [reply], rfl⟩

/-- A run up to the end of the text reads all its forms. -/
theorem Runs.readAll (h : Runs s c done lines last stop) (hends : stop.read.1 = .ok none) :
    c.readAll = .ok (done.map Prod.fst) := by
  induction h with
  | stop s c => exact Cursor.readAll_of_read_none (Prod.ext hends rfl)
  | form hread heval hrest ih =>
    rw [Cursor.readAll_of_read_some hread, ih hends]
    rfl

end Session

namespace Console

variable {c : Console} {cursor after : Cursor} {t : Transcript}

/-! ## The console goes through the same run -/

theorem feedFrom_of_read_none (atEnd : Bool) (h : cursor.read = (.ok none, after)) :
    c.feedFrom cursor atEnd t = ⟨c, .done, [], t⟩ := by
  rw [feedFrom]
  split <;> simp_all

theorem feedFrom_of_read_some {form : Value} (atEnd : Bool)
    (h : cursor.read = (.ok (some form), after)) :
    c.feedFrom cursor atEnd t =
      (c.runForm form).1.feedFrom after atEnd (t ++ (c.runForm form).2) := by
  rw [feedFrom]
  split <;> simp_all

/-- An error is counted and reported, and feeding goes on behind its line. -/
theorem feedFrom_of_read_error {e : ReadError} (h : cursor.read = (.error e, after)) :
    c.feedFrom cursor true t =
      { c with errors := c.errors + 1 }.feedFrom (Cursor.ofList (Text.afterLine after.rest)) true
        (t.push (.reported (.read e))) := by
  rw [feedFrom]
  split <;> simp_all

/-- A form that succeeds writes its lines and, with echo, its value. -/
theorem runForm_of_ok {form v : Value} (h : (c.session.evalForm form).result = .ok v) :
    (c.runForm form).1 = { c with session := (c.session.evalForm form).session } ∧
      (c.runForm form).2.Shows (c.session.evalForm form).printed.toList
        (if c.echo then [v] else []) := by
  have hvalue : Transcript.Shows (if c.echo then #[.value v] else #[]) []
      (if c.echo then [v] else []) := by
    cases c.echo <;> exact ⟨rfl, rfl, rfl⟩
  have hshows := (Transcript.Shows.ofLines (c.session.evalForm form).printed).append hvalue
  rw [List.append_nil] at hshows
  unfold runForm outcomeEvents
  simp only [h]
  exact ⟨trivial, hshows⟩

/-- A form that fails writes its lines and then its error, and nothing else. -/
theorem runForm_of_error {form : Value} {e : Error}
    (h : (c.session.evalForm form).result = .error e) :
    c.runForm form =
      ({ c with session := (c.session.evalForm form).session, errors := c.errors + 1 },
        ((c.session.evalForm form).printed.map .printed).push (.reported e)) := by
  unfold runForm outcomeEvents
  simp only [h]
  rfl

/-- Forms that run without an error are fed one by one, and the transcript shows their lines and values. -/
theorem feedFrom_of_runs {s last : Session} {stop : Cursor} {done : List (Value × Value)}
    {lines : List String} (h : Session.Runs s cursor done lines last stop) (echo : Bool) (errors : Nat)
    (atEnd : Bool) (t : Transcript) :
    ∃ events : Transcript, events.Shows lines (if echo then done.map Prod.snd else []) ∧
      Console.feedFrom ⟨s, echo, errors⟩ cursor atEnd t =
        Console.feedFrom ⟨last, echo, errors⟩ stop atEnd (t ++ events) := by
  induction h generalizing t with
  | stop s c =>
    refine ⟨#[], ?_, by rw [Array.append_empty]⟩
    cases echo <;> exact .nil
  | @form s last c after stop form v done lines hread heval hrest ih =>
    obtain ⟨hconsole, hshows⟩ := runForm_of_ok (c := ⟨s, echo, errors⟩) heval
    obtain ⟨events, hevents, hfeed⟩ := ih (t ++ (runForm ⟨s, echo, errors⟩ form).2)
    refine ⟨(runForm ⟨s, echo, errors⟩ form).2 ++ events, ?_, ?_⟩
    · have happend := hshows.append hevents
      cases echo <;> exact happend
    · rw [feedFrom_of_read_some atEnd hread, hconsole, hfeed, Array.append_assoc]

/-- The transcript so far stays in front of whatever is written later. -/
theorem exists_transcript_feedFrom (c : Console) (cursor : Cursor) (atEnd : Bool) (t : Transcript) :
    ∃ later, (c.feedFrom cursor atEnd t).transcript = t ++ later := by
  rw [feedFrom_eq_settle]
  exact ⟨_, rfl⟩

/-- Where the text cannot be read or holds a form that fails, the console writes the lines of that form and
reports the error. -/
theorem feedFrom_of_ends {s final : Session} {e : Error} {extra : List String}
    (h : Session.Ends s cursor (some e) final extra) (echo : Bool) (errors : Nat) (t : Transcript) :
    ∃ (events : Transcript) (next : Cursor), events.Shows extra [] ∧
      Console.feedFrom ⟨s, echo, errors⟩ cursor true t =
        Console.feedFrom ⟨final, echo, errors + 1⟩ next true ((t ++ events).push (.reported e)) := by
  cases h with
  | unreadable hread =>
    exact ⟨#[], _, .nil, by rw [feedFrom_of_read_error hread, Array.append_empty]⟩
  | @failed after form e hread heval =>
    refine ⟨_, after, .ofLines (s.evalForm form).printed, ?_⟩
    rw [feedFrom_of_read_some true hread, runForm_of_error (c := ⟨s, echo, errors⟩) heval,
      Array.append_push]

/-- A script and the console run a text alike. When the script succeeds, the console uses up the text and
reports nothing, prints the same lines and ends with the same session, and with echo it writes one value for
each form, the last one being the value of the script. When the script fails, the first thing that the
console reports is the script's error, after the same printed lines; at that moment its session is the one
that the script left, with the environment after the last form that succeeded. -/
theorem feed_agrees_evalText (c : Console) (text : String) :
    let script := c.session.evalText text
    let fed := c.feed text.toList true
    match script.result with
    | .ok v =>
      fed.verdict = .done ∧ fed.remaining = [] ∧ fed.console = { c with session := script.session } ∧
        fed.transcript.reports = [] ∧ fed.transcript.printed = script.printed.toList ∧
        ∃ forms, Value.readAll text = .ok forms ∧
          fed.transcript.values.length = (if c.echo then forms.length else 0) ∧
          (c.echo = true → forms ≠ [] → fed.transcript.values.getLast? = some v) ∧
          (Event.value v).line = v.print
    | .error e =>
      ∃ (before later : Transcript) (next : Cursor),
        before.reports = [] ∧ before.printed = script.printed.toList ∧
        fed.transcript = before.push (.reported e) ++ later ∧
        (Event.reported e).line = "Error: " ++ e.message ∧
        fed = { c with session := script.session, errors := c.errors + 1 }.feedFrom next true
          (before.push (.reported e)) ∧
        ∃ done lines last stop extra,
          Session.Runs c.session (Cursor.ofString text) done lines last stop ∧
          Session.Ends last stop (some e) script.session extra ∧ script.session.env = last.env := by
  intro script fed
  obtain ⟨session, echo, errors⟩ := c
  obtain ⟨done, lines, last, stop, failure, extra, hruns, hends, hprinted, hresult⟩ :=
    session.evalFrom_outcome (Cursor.ofString text) .nil #[]
  change Session.Ends last stop failure script.session extra at hends
  change script.printed.toList = [] ++ (lines ++ extra) at hprinted
  change script.result = _ at hresult
  obtain ⟨events, hevents, hfeed⟩ := feedFrom_of_runs hruns echo errors true #[]
  change fed = _ at hfeed
  rw [Array.empty_append] at hfeed
  rw [List.nil_append] at hprinted
  -- the run is common to both; what differs is how it ends
  cases failure with
  | none =>
    rw [hresult]
    generalize hfinal : script.session = final at hends
    cases hends with
    | finished hread =>
      rw [feedFrom_of_read_none true hread] at hfeed
      rw [List.append_nil] at hprinted
      rw [hfeed, hprinted]
      refine ⟨rfl, rfl, rfl, hevents.reports, hevents.printed, done.map Prod.fst, ?_, ?_, ?_, rfl⟩
      · exact hruns.readAll (by rw [hread])
      · rw [hevents.values]
        cases echo <;> simp
      · rintro rfl hforms
        rw [hevents.values, if_pos rfl, List.getLastD_eq_getLast?]
        obtain ⟨front, pair, rfl⟩ := (List.eq_nil_or_concat done).resolve_left (by simpa using hforms)
        simp
  | some e =>
    rw [hresult]
    obtain ⟨others, next, hothers, herror⟩ := feedFrom_of_ends hends echo errors events
    rw [herror] at hfeed
    obtain ⟨later, hlater⟩ := exists_transcript_feedFrom ⟨script.session, echo, errors + 1⟩ next true
      ((events ++ others).push (.reported e))
    have hbefore := hevents.append hothers
    refine ⟨events ++ others, later, next, hbefore.reports, ?_, ?_, rfl, hfeed, done, lines, last, stop,
      extra, hruns, hends, hends.env_eq⟩
    · rw [hbefore.printed, hprinted]
    · rw [hfeed, hlater]

end Console

end SmallLisp
