import Terraload.Proofs.Command.Loading
import Terraload.Proofs.Session.Sequence
import Terraload.Proofs.State
/-!
A run stops at the first template or module that fails to load: it reports the failure and makes no
further call. Where nothing fails it prints a summary.
-/
namespace Terraload

namespace Call

variable {config : Config} {fs : FileSystem} {before : List Call} {c : Call} {s t u : Session}
  {log log' : List LogEntry} {f : Failure}

theorem runAll_eq_row : runAll config fs = Step.row fun c s => run config fs s c := by
  funext calls
  induction calls with
  | nil => rfl
  | cons c rest ih =>
    funext s
    rw [runAll, ih]
    rfl

/-- Behind calls that all succeed, the others go on from the session they leave. -/
theorem runAll_append (h : runAll config fs before s = ⟨t, log, none⟩) (rest : List Call) :
    runAll config fs (before ++ rest) s = (runAll config fs rest t).after log := by
  rw [runAll_eq_row] at h ⊢
  rw [Step.row_append, h]
  rfl

/-- The first call that fails ends the calls. -/
theorem runAll_failed (hbefore : runAll config fs before s = ⟨t, log, none⟩)
    (hc : c.run config fs t = ⟨u, log', some f⟩) (after : List Call) :
    runAll config fs (before ++ c :: after) s = ⟨u, log ++ log', some f⟩ := by
  rw [runAll_append hbefore, runAll, hc]
  rfl

end Call

namespace LoadOptions

/-- Of the calls that have to succeed, those before one succeed, and that one fails. The entries are
those of all of these. -/
inductive FailsAt (o : LoadOptions) (config : Config) (fs : FileSystem) :
    List Call → Call → List LogEntry → Failure → Prop
  | intro {before after : List Call} {c : Call} {t u : Session} {log log' : List LogEntry}
      {f : Failure} (hcalls : o.templateCalls = before ++ c :: after)
      (hbefore : Call.runAll config fs before Session.empty = ⟨t, log, none⟩)
      (hc : c.run config fs t = ⟨u, log', some f⟩) : FailsAt o config fs before c (log ++ log') f

theorem FailsAt.runWith {o : LoadOptions} {s : Surroundings} {settings : Settings}
    {before : List Call} {c : Call} {log : List LogEntry} {f : Failure}
    (h : o.FailsAt (.standard settings) s.files before c log f)
    (hf : reports f = true) :
    o.runWith settings s =
      ⟨1, [], written (o.journal settings s) (log ++ [failedEntry f]) ++
        printedLines [f.render true], none⟩ := by
  obtain ⟨hcalls, hbefore, hc⟩ := h
  simp only [LoadOptions.runWith, hcalls, Call.runAll_failed hbefore hc, hf, if_true]

end LoadOptions

namespace Summary

def counts (s : Summary) : List Nat :=
  [s.tfvarsCount, s.moduleCount, s.rootResourceCount, s.metrics.templatesLoaded,
    s.metrics.moduleFilesLoaded, s.metrics.tfvarsLoaded, s.metrics.tfvarsSkipped]

theorem json?_isSome {s : Summary}
    (hcounts : ∀ n ∈ s.counts, (natDigits n).length ≤ Json.digitLimit)
    (hserial : (natDigits s.serial.natAbs).length ≤ Json.digitLimit) : s.json?.isSome = true := by
  have hnumbers : s.numbers.all (fun n => (natDigits n.natAbs).length ≤ Json.digitLimit) = true := by
    simp only [counts, List.forall_mem_cons] at hcounts
    obtain ⟨htfvars, hmodules, hresources, htemplates, hfiles, hloaded, hskipped, -⟩ := hcounts
    simp [numbers, htfvars, hserial, hmodules, hresources, htemplates, hfiles, hloaded, hskipped]
  rw [json?, if_pos hnumbers]
  rfl

end Summary

def LoadOptions.shown? (o : LoadOptions) (s : Summary) : Option Text :=
  if o.json then s.json?.map (fun t => unlines [t]) else some (unlines s.lines)

theorem LoadOptions.printed_of_shown? {o : LoadOptions} {s : Session} {output : Text}
    (h : o.shown? (Summary.ofSession s) = some output) : o.printed s = .ok output := by
  rw [shown?] at h
  rw [printed]
  split at h
  next hjson =>
    obtain ⟨t, ht, rfl⟩ := Option.map_eq_some_iff.mp h
    rw [if_pos hjson, ht]
  next hjson =>
    rw [if_neg hjson]
    exact congrArg Except.ok (Option.some.inj h)

/-- A summary is shown as long as its counts are not longer than a number may be. -/
theorem LoadOptions.shown?_session {o : LoadOptions} {settings : Settings} {fs : FileSystem}
    (hcounts : o.json = true → ∀ n ∈ (Summary.ofSession (o.session settings fs)).counts,
      (natDigits n).length ≤ Json.digitLimit) :
    ∃ output, o.shown? (Summary.ofSession (o.session settings fs)) = some output := by
  rw [shown?]
  split
  next hjson =>
    have hserial :
        (natDigits (o.session settings fs).state.serial.natAbs).length ≤ Json.digitLimit :=
      state_session_of (by decide) fun bytes state hdecode => State.digits_serial hdecode
    obtain ⟨t, ht⟩ := Option.isSome_iff_exists.mp (Summary.json?_isSome (hcounts hjson) hserial)
    exact ⟨unlines [t], by rw [ht]; rfl⟩
  next => exact ⟨_, rfl⟩

def plainOptions : LoadOptions := ⟨text ".", [], [], true, false, false, false⟩

end Terraload
