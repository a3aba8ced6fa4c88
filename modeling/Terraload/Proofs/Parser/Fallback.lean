import Mathlib.Data.List.Forall2
import Terraload.Parser
/-!
Trying parsers in order. The outcome is settled by the first parser that does not reject the content:
the rejections before it are kept in order, and no parser behind it is called. The calls are counted
by a loop that writes down each one.
-/
namespace Terraload.Parser

variable {ps before after : List Parser} {p : Parser} {bytes : Bytes} {rejections : List Rejection}
  {trial : Trial} {d : Document} {b : Breakdown} {r : Rejection}

def AllReject (bytes : Bytes) (ps : List Parser) (rejections : List Rejection) : Prop :=
  List.Forall₂ (fun p r => p.parse bytes = .rejected r) ps rejections

theorem AllReject.exists (h : AllReject bytes ps rejections) :
    ∀ p ∈ ps, ∃ r, p.parse bytes = .rejected r := by
  induction h with
  | nil => exact List.forall_mem_nil _
  | cons hp _ ih => exact List.forall_mem_cons.mpr ⟨⟨_, hp⟩, ih⟩

theorem exists_allReject (h : ∀ p ∈ ps, ∃ r, p.parse bytes = .rejected r) :
    ∃ rejections, AllReject bytes ps rejections := by
  induction ps with
  | nil => exact ⟨[], .nil⟩
  | cons p ps ih =>
    obtain ⟨⟨r, hp⟩, hps⟩ := List.forall_mem_cons.mp h
    obtain ⟨rejections, hall⟩ := ih hps
    exact ⟨r :: rejections, .cons hp hall⟩

/-- What a trial of a row of parsers has to find, by what the first of them does that does not reject
the content. -/
inductive Tried (bytes : Bytes) : List Parser → Trial → Prop
  /-- There is none. -/
  | rejected {ps : List Parser} {rejections : List Rejection} (h : AllReject bytes ps rejections) :
      Tried bytes ps ⟨.ok none, rejections, ps.length⟩
  /-- It gives a document. -/
  | document {before after : List Parser} {p : Parser} {rejections : List Rejection} {d : Document}
      (h : AllReject bytes before rejections) (hp : p.parse bytes = .document d) :
      Tried bytes (before ++ p :: after) ⟨.ok (some d), rejections, before.length + 1⟩
  /-- It breaks off. -/
  | broken {before after : List Parser} {p : Parser} {rejections : List Rejection} {b : Breakdown}
      (h : AllReject bytes before rejections) (hp : p.parse bytes = .broken b) :
      Tried bytes (before ++ p :: after) ⟨.error b, rejections, before.length + 1⟩

theorem parseFirst_cons_of_rejected (h : p.parse bytes = .rejected r) :
    parseFirst (p :: ps) bytes =
      ⟨(parseFirst ps bytes).result, r :: (parseFirst ps bytes).rejections,
        (parseFirst ps bytes).calls + 1⟩ := by
  rw [parseFirst, h]

theorem parseFirst_append (h : AllReject bytes before rejections) (ps : List Parser) :
    parseFirst (before ++ ps) bytes =
      ⟨(parseFirst ps bytes).result, rejections ++ (parseFirst ps bytes).rejections,
        (parseFirst ps bytes).calls + before.length⟩ := by
  induction h with
  | nil => rfl
  | cons hp _ ih =>
    rw [List.cons_append, parseFirst_cons_of_rejected hp, ih]
    rfl

theorem Tried.parseFirst_eq (h : Tried bytes ps trial) : parseFirst ps bytes = trial := by
  cases h with
  | rejected h =>
    have hnil := parseFirst_append h []
    simpa [parseFirst] using hnil
  | document h hp =>
    rw [parseFirst_append h, parseFirst, hp]
    simp [Nat.add_comm]
  | broken h hp =>
    rw [parseFirst_append h, parseFirst, hp]
    simp [Nat.add_comm]

theorem Tried.cons (hp : p.parse bytes = .rejected r) (h : Tried bytes ps trial) :
    Tried bytes (p :: ps) ⟨trial.result, r :: trial.rejections, trial.calls + 1⟩ := by
  cases h with
  | rejected h => exact .rejected (.cons hp h)
  | document h hd => exact .document (.cons hp h) hd
  | broken h hb => exact .broken (.cons hp h) hb

theorem tried_parseFirst (ps : List Parser) (bytes : Bytes) :
    Tried bytes ps (parseFirst ps bytes) := by
  induction ps with
  | nil => exact .rejected .nil
  | cons p ps ih =>
    cases hp : p.parse bytes with
    | document d =>
      have htried : Tried bytes ([] ++ p :: ps) _ := .document .nil hp
      rwa [parseFirst, hp]
    | broken b =>
      have htried : Tried bytes ([] ++ p :: ps) _ := .broken .nil hp
      rwa [parseFirst, hp]
    | rejected r =>
      rw [parseFirst_cons_of_rejected hp]
      exact ih.cons hp

theorem parseFirst_eq_iff : parseFirst ps bytes = trial ↔ Tried bytes ps trial := by
  constructor
  · rintro rfl
    exact tried_parseFirst ps bytes
  · exact Tried.parseFirst_eq

theorem Tried.allReject (h : Tried bytes ps trial) (hnone : trial.result = .ok none) :
    AllReject bytes ps trial.rejections := by
  cases h with
  | rejected hall => exact hall
  | document => cases hnone
  | broken => cases hnone

def FirstGives (ps : List Parser) (bytes : Bytes) (d : Document) : Prop :=
  ∃ before p after, ps = before ++ p :: after ∧
    (∀ q ∈ before, ∃ r, q.parse bytes = .rejected r) ∧ p.parse bytes = .document d

theorem Tried.firstGives (h : Tried bytes ps trial) (hsome : trial.result = .ok (some d)) :
    FirstGives ps bytes d := by
  cases h with
  | rejected => cases hsome
  | @document before after p _ _ hall hp =>
    cases hsome
    exact ⟨before, p, after, rfl, hall.exists, hp⟩
  | broken => cases hsome

theorem parseFirst_eq_some : (parseFirst ps bytes).result = .ok (some d) ↔ FirstGives ps bytes d := by
  constructor
  · exact (tried_parseFirst ps bytes).firstGives
  · rintro ⟨before, p, after, rfl, hbefore, hp⟩
    obtain ⟨rejections, hall⟩ := exists_allReject hbefore
    rw [(Tried.document hall hp).parseFirst_eq]

theorem Tried.exists_broken (h : Tried bytes ps trial) (herror : trial.result = .error b) :
    ∃ p ∈ ps, p.parse bytes = .broken b := by
  cases h with
  | rejected => cases herror
  | document => cases herror
  | broken _ hp =>
    cases herror
    exact ⟨_, List.mem_append_right _ List.mem_cons_self, hp⟩

structure Attempt where
  place : Nat
  content : Bytes

abbrev Calling := ExceptT Breakdown (StateM (List Attempt))

def call (place : Nat) (p : Parser) (bytes : Bytes) : Calling (Except Rejection Document) := do
  modify (· ++ [⟨place, bytes⟩])
  match p.parse bytes with
  | .document d => return .ok d
  | .rejected r => return .error r
  | .broken b => throw b

def tryInOrder {m : Type → Type} [Monad m] (bytes : Bytes) :
    List (Bytes → m (Except Rejection Document)) → m (Option Document × List Rejection)
  | [] => return (none, [])
  | p :: ps => do
    match ← p bytes with
    | .ok d => return (some d, [])
    | .error r =>
      let (found, rejections) ← tryInOrder bytes ps
      return (found, r :: rejections)

def callsOf (n : Nat) (ps : List Parser) : List (Bytes → Calling (Except Rejection Document)) :=
  (ps.zipIdx n).map fun x => call x.2 x.1

theorem callsOf_cons (n : Nat) (p : Parser) (ps : List Parser) :
    callsOf n (p :: ps) = call n p :: callsOf (n + 1) ps := by
  simp [callsOf]

theorem run_bind {α β : Type} (x : Calling α) (f : α → Calling β) (calls : List Attempt) :
    (x >>= f).run.run calls =
      match x.run.run calls with
      | (.ok a, more) => (f a).run.run more
      | (.error b, more) => (.error b, more) := by
  have hrun : (x >>= f).run.run calls =
      (ExceptT.bindCont f (x.run.run calls).1).run (x.run.run calls).2 := rfl
  rw [hrun]
  cases x.run.run calls with
  | mk v more => cases v <;> rfl

theorem run_call (n : Nat) (p : Parser) (bytes : Bytes) (calls : List Attempt) :
    (call n p bytes).run.run calls =
      (match p.parse bytes with
        | .document d => .ok (.ok d)
        | .rejected r => .ok (.error r)
        | .broken b => .error b, calls ++ [⟨n, bytes⟩]) := by
  rw [call, run_bind]
  cases p.parse bytes <;> rfl

/-- The loop finds what a trial finds, and calls as many parsers, each once and in order. -/
theorem run_tryInOrder (n : Nat) (ps : List Parser) (bytes : Bytes) (calls : List Attempt) :
    (tryInOrder bytes (callsOf n ps)).run.run calls =
      ((parseFirst ps bytes).result.map (·, (parseFirst ps bytes).rejections),
        calls ++ (List.range' n (parseFirst ps bytes).calls).map (⟨·, bytes⟩)) := by
  induction ps generalizing n calls with
  | nil =>
    rw [parseFirst, List.range'_zero, List.map_nil, List.append_nil]
    rfl
  | cons p ps ih =>
    rw [callsOf_cons, tryInOrder, run_bind, run_call]
    cases hp : p.parse bytes with
    | document d =>
      rw [parseFirst, hp]
      rfl
    | broken b =>
      rw [parseFirst, hp]
      rfl
    | rejected r =>
      rw [parseFirst_cons_of_rejected hp]
      dsimp only
      rw [run_bind, ih]
      cases (parseFirst ps bytes).result with
      | ok found =>
        simp only [Except.map, List.range'_succ, List.map_cons, List.append_assoc,
          List.cons_append, List.nil_append]
        rfl
      | error b =>
        simp only [Except.map, List.range'_succ, List.map_cons, List.append_assoc,
          List.cons_append, List.nil_append]

/-- Parsers are tried in order on a content. The trial is the one that the first parser settles that
does not reject it: with none, no document and a rejection of each; with a document, the document and
the rejections before it; with a breakdown, the breakdown. A loop over the parsers that writes down
its calls comes to the same, and calls each parser up to that one once, in order and with the content,
and no other. -/
theorem falls_back_in_order (ps : List Parser) (bytes : Bytes) :
    (∀ trial, parseFirst ps bytes = trial ↔ Tried bytes ps trial) ∧
    (tryInOrder bytes (callsOf 0 ps)).run.run [] =
      ((parseFirst ps bytes).result.map (·, (parseFirst ps bytes).rejections),
        (List.range (parseFirst ps bytes).calls).map (⟨·, bytes⟩)) := by
  refine ⟨fun trial => parseFirst_eq_iff, ?_⟩
  rw [run_tryInOrder, List.nil_append, List.range_eq_range']

end Terraload.Parser
