import Terraload.Command.Run
import Terraload.Proofs.Json.Limits
import Terraload.Proofs.Json.Printable
import Terraload.Proofs.Json.Reading
/-!
The journal in JSON as a stream: one line for each event that is severe enough, in the order of the
events, and on each line one object. It says what the event itself says, else what was bound, else
the session. The stream ends before the first event that has too long a number or too deep a list or
object in it.
-/
namespace Terraload.Journal

variable {j : Journal} {rules : Json.Rules} {id : Text} {bound : Members Value}
  {e : Text × LogEntry} {events : List (Text × LogEntry)}

def reserved : List String :=
  ["event", "level", "timestamp", "exc_info", "exception", "stack_info", "stack", "self",
    "method_name"]

structure Recordable (lone : Bool) (ms : Members Value) : Prop where
  proper : Json.Proper lone (.object ms)
  free : ∀ name ∈ reserved, text name ∉ ms.names

structure RecordableEvent (lone : Bool) (e : Text × LogEntry) : Prop where
  time : Json.Legible lone e.1
  event : Json.Legible lone e.2.event
  context : Recordable lone e.2.context

def said (id : Text) (bound : Members Value) (e : Text × LogEntry) (name : Text) : Option Value :=
  (e.2.context.get? name).or <| (bound.get? name).or <| Members.get? name
    [(sessionKey, .text id), (eventKey, .text e.2.event),
      (levelKey, .text (text e.2.level.name)), (timeKey, .text e.1)]

def Fits (depth : Nat) (id : Text) (bound : Members Value) (e : Text × LogEntry) : Prop :=
  ∃ n, depth = n + 1 ∧ ∀ name v, said id bound e name = some v → Json.Within n v

structure Tells (rules : Json.Rules) (id : Text) (bound : Members Value) (e : Text × LogEntry)
    (line : Text) : Prop where
  unbroken : .char '\n' ∉ line
  object : ∃ d : Document, Json.read rules line = .ok (.object d) ∧ d.names.Nodup ∧
    ∀ name, d.get? name = (said id bound e name).map Value.arranged

inductive Ends (depth : Nat) (id : Text) (bound : Members Value) :
    List (Text × LogEntry) → Option JournalFailure → Prop
  | written : Ends depth id bound [] none
  | unwritable {e : Text × LogEntry} (obstacle : Json.Obstacle) (h : ¬ Fits depth id bound e)
      (left : List (Text × LogEntry)) : Ends depth id bound (e :: left) (some (.unwritable obstacle))

theorem Recordable.get?_reserved {lone : Bool} {ms : Members Value} (h : Recordable lone ms)
    {name : String} (hname : name ∈ reserved) : ms.get? (text name) = none :=
  (Members.get?_eq_none_iff _ _).mpr (h.free name hname)

section Line

variable (hsession : j.session = [(sessionKey, .text id)])
  (hid : Json.Legible rules.loneSurrogates id) (hbound : Recordable rules.loneSurrogates bound)
  (he : RecordableEvent rules.loneSurrogates e)

include hsession hid hbound he in
theorem proper_members : Json.Proper rules.loneSurrogates
    (.object ({ j with time := e.1 }.members (e.2.bind bound))) := by
  have hbase : Json.Proper rules.loneSurrogates (.object j.session) := by
    rw [hsession]
    exact .object (by simp [Members.names]) (List.forall_mem_singleton.mpr (Json.legible_ofChars _))
      (List.forall_mem_singleton.mpr (.text hid))
  have hown := hbase.putAll (hbound.proper.putAll he.context.proper)
  exact ((hown.put (Json.legible_ofChars _) (.text (Json.legible_ofChars _))).put
    (Json.legible_ofChars _) (.text he.time)).put (Json.legible_ofChars _) (.text he.event)

include hsession hbound he in
/-- The own members of an event win over what was bound, and this over the session. -/
theorem get?_members (name : Text) :
    ({ j with time := e.1 }.members (e.2.bind bound)).get? name = said id bound e name := by
  have hown : e.2.context.names.Nodup := he.context.proper.nodup_names
  have hall : (bound.putAll e.2.context).names.Nodup :=
    Members.nodup_names_putAll hbound.proper.nodup_names _
  have hmerged : (j.session.putAll (bound.putAll e.2.context)).get? name =
      ((e.2.context.get? name).or (bound.get? name)).or (j.session.get? name) := by
    rw [Members.get?_putAll _ hall, Members.get?_putAll _ hown]
  have hreserved {word : String} (h : word ∈ reserved) (hname : name = text word) :
      e.2.context.get? name = none ∧ bound.get? name = none :=
    hname ▸ ⟨he.context.get?_reserved h, hbound.get?_reserved h⟩
  rw [members, Members.get?_put, Members.get?_put, Members.get?_put, LogEntry.bind, hmerged,
    hsession, said]
  by_cases hevent : name = eventKey
  · obtain ⟨hcontext, hb⟩ := hreserved (by simp [reserved]) hevent
    rw [hcontext, hb, hevent]
    rfl
  by_cases htime : name = timeKey
  · obtain ⟨hcontext, hb⟩ := hreserved (by simp [reserved]) htime
    rw [hcontext, hb, htime]
    rfl
  by_cases hlevel : name = levelKey
  · obtain ⟨hcontext, hb⟩ := hreserved (by simp [reserved]) hlevel
    rw [hcontext, hb, hlevel]
    rfl
  simp [Members.get?_cons, hevent, htime, hlevel, Option.or_assoc]

include hsession hid hbound he in
theorem within_members {depth : Nat} :
    Json.Within depth (.object ({ j with time := e.1 }.members (e.2.bind bound))) ↔
      Fits depth id bound e := by
  have hnodup := (proper_members hsession hid hbound he).nodup_names
  have hget := get?_members hsession hbound he
  generalize { j with time := e.1 }.members (e.2.bind bound) = ms at hnodup hget ⊢
  cases depth with
  | zero => exact iff_of_false nofun fun ⟨n, hn, _⟩ => n.succ_ne_zero hn.symm
  | succ depth =>
    rw [Json.within_object]
    constructor
    · intro h
      refine ⟨depth, rfl, fun name v hsaid => ?_⟩
      exact h (name, v) (Members.mem_of_get? ((hget name).trans hsaid))
    · rintro ⟨n, hn, h⟩ m hm
      cases hn
      exact h m.1 m.2 ((hget m.1).symm.trans (Members.get?_of_mem hnodup hm))

include hsession hid hbound he in
theorem jsonLine_tells (hdepth : j.depth ≤ rules.depth) (h : Fits j.depth id bound e) :
    Tells rules id bound e ({ j with time := e.1 }.jsonLine (e.2.bind bound)) := by
  have hwithin := ((within_members hsession hid hbound he).mpr h).mono hdepth
  have hwritable := (proper_members hsession hid hbound he).writable hwithin
  have hget := get?_members hsession hbound he
  have hdistinct := (proper_members hsession hid hbound he).nodup_names
  rw [jsonLine]
  generalize { j with time := e.1 }.members (e.2.bind bound) = ms at hwritable hget hdistinct ⊢
  have hnodup : (Members.names (ms.map fun m => (m.1, m.2.arranged))).Nodup := by
    rw [Members.names, List.map_map]
    exact hdistinct
  refine ⟨fun hmem => ?_, Members.sorted (ms.map fun m => (m.1, m.2.arranged)), ?_,
    Members.nodup_names_sorted hnodup, fun name => ?_⟩
  · obtain ⟨c, hc, heq⟩ := List.mem_map.mp hmem
    cases heq
    exact absurd (hwritable.printable _ hc) (by decide)
  · have hwrites := hwritable.writes .line 0
    rw [Value.arranged_object] at hwrites
    have htext : Json.WritesText rules.loneSurrogates rules.depth
        (.object (Members.sorted (ms.map fun m => (m.1, m.2.arranged))))
        (Text.ofChars (Json.render .line (.object ms))) :=
      ⟨[], _, [], Json.blank_nil, hwrites, Json.blank_nil, (List.append_nil _).symm⟩
    exact (Json.read_complete htext).resolve_right fun h => absurd h.1 (Nat.lt_irrefl _)
  · rw [Members.get?_perm name hnodup (Members.perm_sorted _), Members.get?_mapValues, hget]

end Line

def bindAll (bound : Members Value) (events : List (Text × LogEntry)) : List (Text × LogEntry) :=
  events.map fun e => (e.1, e.2.bind bound)

theorem writeAll_of_minor (h : e.2.level.severity < j.threshold) :
    j.writeAll (bindAll bound (e :: events)) = j.writeAll (bindAll bound events) :=
  if_pos h

theorem writeAll_of_severe (h : j.threshold ≤ e.2.level.severity) :
    j.writeAll (bindAll bound (e :: events)) =
      match { j with time := e.1 }.obstacle? (e.2.bind bound) with
      | some o => ⟨[], some (.unwritable o)⟩
      | none => ⟨{ j with time := e.1 }.line (e.2.bind bound) ++
          .char '\n' :: (j.writeAll (bindAll bound events)).output,
        (j.writeAll (bindAll bound events)).failure⟩ :=
  if_neg (Nat.not_lt.mpr h)

section Stream

variable (hformat : j.format = .json) (hsession : j.session = [(sessionKey, .text id)])
  (hdepth : j.depth ≤ rules.depth) (hid : Json.Legible rules.loneSurrogates id)
  (hbound : Recordable rules.loneSurrogates bound)
include hformat hsession hid hbound

theorem obstacle?_eq_none (he : RecordableEvent rules.loneSurrogates e) :
    { j with time := e.1 }.obstacle? (e.2.bind bound) = none ↔ Fits j.depth id bound e := by
  rw [obstacle?, hformat]
  exact (Json.obstacle?_eq_none true j.depth _).trans (within_members hsession hid hbound he)

theorem writeAll_of_fit (he : RecordableEvent rules.loneSurrogates e)
    (h : j.threshold ≤ e.2.level.severity) (hfits : Fits j.depth id bound e) :
    j.writeAll (bindAll bound (e :: events)) =
      ⟨{ j with time := e.1 }.jsonLine (e.2.bind bound) ++
        .char '\n' :: (j.writeAll (bindAll bound events)).output,
        (j.writeAll (bindAll bound events)).failure⟩ := by
  have hline : { j with time := e.1 }.line (e.2.bind bound) =
      { j with time := e.1 }.jsonLine (e.2.bind bound) := by
    rw [line, hformat]
  rw [writeAll_of_severe h, (obstacle?_eq_none hformat hsession hid hbound he).mpr hfits, hline]

theorem writeAll_of_unfit (he : RecordableEvent rules.loneSurrogates e)
    (h : j.threshold ≤ e.2.level.severity) (hunfit : ¬ Fits j.depth id bound e) :
    ∃ o, j.writeAll (bindAll bound (e :: events)) = ⟨[], some (.unwritable o)⟩ := by
  have hsome : { j with time := e.1 }.obstacle? (e.2.bind bound) ≠ none :=
    fun hnone => hunfit ((obstacle?_eq_none hformat hsession hid hbound he).mp hnone)
  obtain ⟨o, ho⟩ := Option.ne_none_iff_exists'.mp hsome
  exact ⟨o, by rw [writeAll_of_severe h, ho]⟩

variable (hevents : ∀ e ∈ events, RecordableEvent rules.loneSurrogates e)
include hdepth hevents

theorem writeAll_reads_back : ∃ done left lines failure,
    j.writeAll (bindAll bound events) = ⟨unlines lines, failure⟩ ∧
      events.filter (fun e => j.threshold ≤ e.2.level.severity) = done ++ left ∧
      List.Forall₂ (Tells rules id bound) done lines ∧ (∀ e ∈ done, Fits j.depth id bound e) ∧
      Ends j.depth id bound left failure := by
  induction events with
  | nil => exact ⟨[], [], [], none, rfl, rfl, .nil, List.forall_mem_nil _, .written⟩
  | cons e events ih =>
    obtain ⟨he, hevents⟩ := List.forall_mem_cons.mp hevents
    obtain ⟨done, left, lines, failure, hwrite, hdone, hlines, hfit, hends⟩ := ih hevents
    by_cases hsevere : j.threshold ≤ e.2.level.severity
    · rw [List.filter_cons_of_pos (by simpa using hsevere)]
      by_cases h : Fits j.depth id bound e
      · refine ⟨e :: done, left, { j with time := e.1 }.jsonLine (e.2.bind bound) :: lines, failure,
          ?_, by rw [hdone, List.cons_append],
          .cons (jsonLine_tells hsession hid hbound he hdepth h) hlines,
          List.forall_mem_cons.mpr ⟨h, hfit⟩, hends⟩
        rw [writeAll_of_fit hformat hsession hid hbound he hsevere h, hwrite]
        simp [unlines]
      · obtain ⟨o, hstop⟩ : ∃ o, j.writeAll (bindAll bound (e :: events)) =
            ⟨[], some (.unwritable o)⟩ :=
          writeAll_of_unfit hformat hsession hid hbound he hsevere h
        exact ⟨[], _, [], _, hstop, rfl, .nil, List.forall_mem_nil _, .unwritable o h _⟩
    · rw [writeAll_of_minor (Nat.not_le.mp hsevere),
        List.filter_cons_of_neg (by simpa using hsevere)]
      exact ⟨done, left, lines, failure, hwrite, hdone, hlines, hfit, hends⟩

/-- A journal in JSON has one line for each event that reaches the threshold, in order, and nothing
for the others, up to the first that does not fit. The object on a line says what was bound and the
event's own members, these first, the session unless they name it too, and the event with its level
and time. Where the threshold is none of those that are known, nothing is written at all. -/
theorem stream_reads_back :
    (j.threshold ∉ thresholds →
      j.write (bindAll bound events) = ⟨[], some (.unknownThreshold j.threshold)⟩) ∧
    (j.threshold ∈ thresholds → ∃ done left lines failure,
      j.write (bindAll bound events) = ⟨unlines lines, failure⟩ ∧
        events.filter (fun e => j.threshold ≤ e.2.level.severity) = done ++ left ∧
        List.Forall₂ (Tells rules id bound) done lines ∧ (∀ e ∈ done, Fits j.depth id bound e) ∧
        Ends j.depth id bound left failure) := by
  refine ⟨fun h => ?_, fun h => ?_⟩
  · rw [write, if_neg h]
  · rw [write, if_pos h]
    exact writeAll_reads_back hformat hsession hdepth hid hbound hevents

end Stream

def sample : Journal where
  format := .json
  threshold := Level.warning.severity
  session := [(sessionKey, .text (text "one\ntwo"))]
  time := []
  depth := 3

/-- A warning among less severe events, with line ends, quotes and characters beyond ASCII in it and
a session of its own; and an error that is too deep, with one behind it. -/
def sampleEvents : List (Text × LogEntry) :=
  [(text "10:00", .of .debug "opened" []),
    (text "10:01", .of .warning "read \"twice\"\n"
      [("path", .list [.text (text "a\r\nb"), .integer 7]), ("session_id", .text (text "ünlike"))]),
    (text "10:02", .of .info "closed" []),
    (text "10:03", .of .error "lost" [("paths", .list [.list [.list []]])]),
    (text "10:04", .of .error "stopped" [])]

theorem recordable_component : Recordable true LoadOptions.component where
  proper := .of_names ["component"] rfl (by decide)
    (List.forall_mem_singleton.mpr (.text (Json.legible_ofChars _)))
  free := by decide

theorem recordable_sampleEvents : ∀ e ∈ sampleEvents, RecordableEvent true e := by
  have hblank : Recordable true [] := ⟨.of_names [] rfl (by decide) (List.forall_mem_nil _), by decide⟩
  have hread : Recordable true [(text "path", .list [.text (text "a\r\nb"), .integer 7]),
      (text "session_id", .text (text "ünlike"))] := by
    refine ⟨.of_names ["path", "session_id"] rfl (by decide) ?_, by decide⟩
    exact List.forall_mem_cons.mpr ⟨.list (List.forall_mem_cons.mpr
      ⟨.text (Json.legible_ofChars _), List.forall_mem_singleton.mpr (.integer 7)⟩),
      List.forall_mem_singleton.mpr (.text (Json.legible_ofChars _))⟩
  have hlost : Recordable true [(text "paths", .list [.list [.list []]])] := by
    refine ⟨.of_names ["paths"] rfl (by decide) ?_, by decide⟩
    exact List.forall_mem_singleton.mpr (.list (List.forall_mem_singleton.mpr
      (.list (List.forall_mem_singleton.mpr (.list (List.forall_mem_nil _))))))
  have hevent {time : Text} {e : LogEntry} (htime : Json.Legible true time)
      (hname : Json.Legible true e.event) (hcontext : Recordable true e.context) :
      RecordableEvent true (time, e) := ⟨htime, hname, hcontext⟩
  have hofChars (cs : List Char) : Json.Legible true (Text.ofChars cs) := Json.legible_ofChars cs
  simp only [sampleEvents, List.forall_mem_cons]
  exact ⟨hevent (hofChars _) (hofChars _) hblank, hevent (hofChars _) (hofChars _) hread,
    hevent (hofChars _) (hofChars _) hblank, hevent (hofChars _) (hofChars _) hlost,
    hevent (hofChars _) (hofChars _) hblank, List.forall_mem_nil _⟩

theorem sample_breaks_off :
    ∃ o, (sample.write (bindAll LoadOptions.component sampleEvents)).failure = some (.unwritable o) := by
  have hid : Json.Legible true (text "one\ntwo") := Json.legible_ofChars _
  -- Whether an event fits does not depend on the order in which its members are looked at.
  have hiff {e : Text × LogEntry} (he : RecordableEvent Json.Rules.lenient.loneSurrogates e) :
      Json.obstacle? false sample.depth
        (.object ({ sample with time := e.1 }.members (e.2.bind LoadOptions.component))) = none ↔
          Fits sample.depth (text "one\ntwo") LoadOptions.component e :=
    (Json.obstacle?_eq_none false _ _).trans (within_members rfl hid recordable_component he)
  have hevents : ∀ e ∈ sampleEvents, RecordableEvent Json.Rules.lenient.loneSurrogates e :=
    recordable_sampleEvents
  have hsevere : sample.threshold ≤ Level.error.severity := by decide
  simp only [sampleEvents, List.forall_mem_cons] at hevents
  obtain ⟨-, hread, -, hlost, -⟩ := hevents
  have hfits := (hiff hread).mp (by decide +kernel)
  have hunfit := mt (hiff hlost).mpr (by decide +kernel)
  obtain ⟨o, hstop⟩ := writeAll_of_unfit rfl rfl hid recordable_component hlost hsevere hunfit
  rw [write, if_pos (by decide), sampleEvents, writeAll_of_minor (by decide),
    writeAll_of_fit rfl rfl hid recordable_component hread (Nat.le_refl _) hfits,
    writeAll_of_minor (by decide)]
  exact ⟨o, by rw [hstop]⟩

theorem stream_reads_back_on_sample :
    let rules := Json.Rules.lenient
    let id := text "one\ntwo"
    let bound := LoadOptions.component
    sample.format = .json ∧ sample.session = [(sessionKey, .text id)] ∧
      sample.depth ≤ rules.depth ∧ Json.Legible rules.loneSurrogates id ∧
      Recordable rules.loneSurrogates bound ∧
      (∀ e ∈ sampleEvents, RecordableEvent rules.loneSurrogates e) ∧
      (∃ o, (sample.write (bindAll bound sampleEvents)).failure = some (.unwritable o)) ∧
      (sample.threshold ∉ thresholds → sample.write (bindAll bound sampleEvents) =
        ⟨[], some (.unknownThreshold sample.threshold)⟩) ∧
      (sample.threshold ∈ thresholds → ∃ done left lines failure,
        sample.write (bindAll bound sampleEvents) = ⟨unlines lines, failure⟩ ∧
          sampleEvents.filter (fun e => sample.threshold ≤ e.2.level.severity) = done ++ left ∧
          List.Forall₂ (Tells rules id bound) done lines ∧
          (∀ e ∈ done, Fits sample.depth id bound e) ∧
          Ends sample.depth id bound left failure) := by
  intro rules id bound
  refine ⟨rfl, rfl, by decide, Json.legible_ofChars _, recordable_component,
    recordable_sampleEvents, sample_breaks_off, stream_reads_back rfl rfl (by decide)
      (Json.legible_ofChars _) recordable_component recordable_sampleEvents⟩

def nested : Nat → Value
  | 0 => .list []
  | n + 1 => .list [nested n]

theorem proper_nested (n : Nat) : Json.Proper true (nested n) := by
  induction n with
  | zero => exact .list (List.forall_mem_nil _)
  | succ n ih => exact .list (List.forall_mem_singleton.mpr ih)

theorem not_within_nested (n : Nat) : ¬ Json.Within n (nested n) := by
  induction n with
  | zero => exact nofun
  | succ n ih => exact fun h => ih (Json.within_list.mp h _ (List.mem_singleton.mpr rfl))

/-- An event that would have to be written and is not: the threshold lies between two levels, or
there is a number with a digit too many, or lists that stand in each other too deep. -/
theorem severe_event_unwritten :
    let journal (threshold : Nat) : Journal :=
      ⟨.json, threshold, [(sessionKey, .text (text "s"))], [], standardDepth⟩
    let event (v : Value) : Text × LogEntry := (text "10:00", .of .info "x" [("v", v)])
    (journal 15).write (bindAll [] [event .null]) = ⟨[], some (.unknownThreshold 15)⟩ ∧
      (∃ o, (journal 20).write (bindAll [] [event (.integer (10 ^ Json.digitLimit : Nat))]) =
        ⟨[], some (.unwritable o)⟩) ∧
      ∃ o, (journal 20).write (bindAll [] [event (nested standardDepth)]) =
        ⟨[], some (.unwritable o)⟩ := by
  intro journal event
  have hblank : Recordable Json.Rules.lenient.loneSurrogates [] :=
    ⟨.of_names [] rfl (by decide) (List.forall_mem_nil _), by decide⟩
  have hfree : ∀ name ∈ reserved, text name ∉ [text "v"] := by decide
  have hunwritten {v : Value} (hproper : Json.Proper true v)
      (hv : ¬ Json.Within (standardDepth - 1) v) : ∃ o, (journal 20).write (bindAll [] [event v]) =
        ⟨[], some (.unwritable o)⟩ := by
    have hevent : RecordableEvent _ (event v) := ⟨Json.legible_ofChars _, Json.legible_ofChars _,
      .of_names ["v"] rfl (by decide) (List.forall_mem_singleton.mpr hproper), hfree⟩
    have hsevere : (journal 20).threshold ≤ (event v).2.level.severity := Nat.le_refl 20
    refine writeAll_of_unfit rfl rfl (Json.legible_ofChars _) hblank hevent hsevere ?_
    rintro ⟨n, hn, h⟩
    cases hn
    exact hv (h (text "v") v rfl)
  exact ⟨rfl, hunwritten (.integer _) (Json.not_within_of_le (Nat.le_refl _)),
    hunwritten (proper_nested _) fun h => not_within_nested standardDepth (h.mono (Nat.sub_le _ _))⟩

end Terraload.Journal
