import Mathlib.Data.List.ReduceOption
import PureOS.Foundation.Cyclic
import PureOS.Process.Exec

set_option autoImplicit false

/-!
# Process: whose turn it is (`syscall.rs`)

`next_runnable_after` goes round the table.  A runnable process that is passed over by
a switch has come nearer, whatever became of the others in the meantime, so that only as
many switches can happen before its turn as it was slots ahead.
-/

namespace PureOS.Process

open PureOS.Foundation

namespace Table

/-- The scheduler's search is the search round the table. -/
theorem nextRunnableAfter_eq_scanAfter (t : Table) (current : Pid) :
    t.nextRunnableAfter current = scanAfter (fun i => (t i).state = .runnable) current := rfl

variable {t : Table} {current next p : Pid}

theorem exists_nextRunnableAfter (ready : (t p).state = .runnable) (hne : current ≠ p) :
    ∃ next, t.nextRunnableAfter current = some next :=
  exists_scanAfter (decide_eq_true ready) hne

/-- A runnable process that is not chosen has come nearer. -/
theorem ahead_nextRunnableAfter_lt (h : t.nextRunnableAfter current = some next)
    (ready : (t p).state = .runnable) (hne : current ≠ p) : ahead next p < ahead current p :=
  ahead_scanAfter_lt h (decide_eq_true ready) hne

end Table

namespace Kernel

variable {k k' k₀ : Kernel} {p : Pid} {l : Option Pid} {h : List (Option Pid)}

/-! ## The scheduler -/

/-- The process that is switched to, if another one runs now. -/
def switchedTo (k k' : Kernel) : Option Pid :=
  if k'.current = k.current then none else some k'.current

/-- A step of the scheduler.  Whatever the current process does in its own code and in its
system calls, processes may block, wake, exit and be created meanwhile; the CPU goes to
another one in `yield_cpu` and `block_current` only. -/
inductive Scheduled (k : Kernel) : Option Pid → Kernel → Prop
  | work {k' : Kernel} (same : k'.current = k.current) : Scheduled k none k'
  | yieldCpu {k' : Kernel} (same : k'.current = k.current) :
      Scheduled k (k'.switchedTo k'.yieldCpu) k'.yieldCpu
  | blockCurrent {k' : Kernel} (same : k'.current = k.current) :
      Scheduled k (k'.switchedTo (k'.blockCurrent k'.current)) (k'.blockCurrent k'.current)

/-- The switches of a run, in order. -/
def switches (h : List (Option Pid)) : List Pid := h.reduceOption

theorem yieldCpu_eq_switch {next : Pid} (hnext : k.table.nextRunnableAfter k.current = some next) :
    k.yieldCpu.current = next := by
  unfold yieldCpu
  dsimp only
  rw [hnext]
  exact switchContext_current _ rfl

theorem blockCurrent_eq_switch {next : Pid}
    (hnext : k.table.nextRunnableAfter k.current = some next) :
    (k.blockCurrent k.current).current = next := by
  unfold blockCurrent
  rw [hnext]
  exact switchContext_current _ rfl

/-- How a switch counts: it takes one of the steps to a process that waits. -/
theorem switchedTo_length_add_ahead {next : Pid}
    (hnext : k.table.nextRunnableAfter k.current = some next) (hcurrent : k'.current = next)
    (ready : (k.table p).state = .runnable) (waits : k.current ≠ p) :
    (switches [k.switchedTo k']).length + ahead k'.current p ≤ ahead k.current p := by
  have hlt : ahead next p < ahead k.current p := Table.ahead_nextRunnableAfter_lt hnext ready waits
  unfold switchedTo switches
  rw [hcurrent]
  split
  · exact hlt.le.trans' (by simp [List.reduceOption])
  · simp only [List.reduceOption_singleton, Option.toList_some, List.length_singleton]
    omega

/-- One step: what it switches and how far ahead the waiting process then is come to no more
than how far ahead it was. -/
theorem Scheduled.length_add_ahead (step : Scheduled k l k')
    (ready : (k'.table p).state = .runnable) (waits : k.current ≠ p) :
    (switches [l]).length + ahead k'.current p ≤ ahead k.current p := by
  cases step with
  | work same =>
      rw [same]
      simp [switches, List.reduceOption]
  | @yieldCpu k₁ same =>
      rw [yieldCpu_state] at ready
      rw [← same] at waits ⊢
      obtain ⟨next, hnext⟩ := Table.exists_nextRunnableAfter ready waits
      exact switchedTo_length_add_ahead hnext (yieldCpu_eq_switch hnext) ready waits
  | @blockCurrent k₁ same =>
      rw [blockCurrent_state] at ready
      rw [← same] at waits ⊢
      obtain ⟨next, hnext⟩ := Table.exists_nextRunnableAfter ready waits
      exact switchedTo_length_add_ahead hnext (blockCurrent_eq_switch hnext) ready waits

/-- A process that was not switched to does not run. -/
theorem Scheduled.waits (step : Scheduled k l k') (waits : k.current ≠ p) (hl : l ≠ some p) :
    k'.current ≠ p := by
  have hother : ∀ {k₁ k₂ : Kernel}, k₁.current = k.current → k₁.switchedTo k₂ ≠ some p →
      k₂.current ≠ p := by
    intro k₁ k₂ same hne heq
    unfold switchedTo at hne
    split at hne
    · rename_i hcurrent
      exact waits (same.symm.trans (hcurrent.symm.trans heq))
    · exact hne (congrArg some heq)
  cases step with
  | work same => rwa [same]
  | yieldCpu same => exact hother same hl
  | blockCurrent same => exact hother same hl

/-! ## Runs -/

/-- A step of the scheduler that leaves `p` runnable. -/
def KeepsReady (p : Pid) (k : Kernel) (l : Option Pid) (k' : Kernel) : Prop :=
  Scheduled k l k' ∧ (k'.table p).state = .runnable

/-- Over a run: the switches so far and the steps that are left to the waiting process come
to no more than the steps there were at first. -/
theorem switches_length_add_ahead_le (waits : k₀.current ≠ p) (run : Run (KeepsReady p) k₀ h k)
    (notYet : p ∉ switches h) :
    k.current ≠ p ∧ (switches h).length + ahead k.current p ≤ ahead k₀.current p := by
  induction run with
  | nil => exact ⟨waits, (Nat.zero_add _).le⟩
  | @snoc h k k' l _ last ih =>
      have happend : switches (h ++ [l]) = switches h ++ switches [l] := List.reduceOption_append h [l]
      rw [happend, List.mem_append, not_or] at notYet
      obtain ⟨hbefore, hl⟩ := notYet
      obtain ⟨hwaits, hle⟩ := ih hbefore
      have hne : l ≠ some p := by
        rintro rfl
        exact hl (List.mem_singleton_self p)
      refine ⟨last.1.waits hwaits hne, ?_⟩
      have hstep := last.1.length_add_ahead last.2 hwaits
      rw [happend, List.length_append]
      omega

/-- How far ahead a process can be bounds the switches before its turn. -/
theorem switches_length_lt (waits : k₀.current ≠ p) (run : Run (KeepsReady p) k₀ h k)
    (notYet : p ∉ switches h) : (switches h).length < maxProcesses := by
  have hle := (switches_length_add_ahead_le waits run notYet).2
  have hlt : ahead k₀.current p < maxProcesses := ahead_lt k₀.current p
  omega

/-! ## The calls of the kernel are such steps -/

theorem Scheduled.of_work (same : k'.current = k.current) :
    Scheduled k (k.switchedTo k') k' := by
  have hnone : k.switchedTo k' = none := if_pos same
  rw [hnone]
  exact .work same

theorem Scheduled.of_block (same : k'.current = k.current) :
    Scheduled k (k.switchedTo (k'.blockCurrent k.current)) (k'.blockCurrent k.current) := by
  have hblock := Scheduled.blockCurrent same
  unfold switchedTo at hblock ⊢
  rwa [same] at hblock

theorem perform_scheduled (k : Kernel) (c : Call) :
    Scheduled k (k.switchedTo (k.perform c).kernel) (k.perform c).kernel := by
  cases c with
  | store addr byte => exact .of_work rfl
  | yieldCpu => exact .yieldCpu rfl
  | sendIpc target ptr =>
      rcases k.sendIpc_cases target ptr with
        ⟨err, -, heq, -⟩ | ⟨target', -, -, -, heq⟩ | ⟨target', -, -, heq⟩
      · rw [perform, heq]
        exact .of_work rfl
      · rw [perform, heq]
        exact .of_block rfl
      · rw [perform, heq]
        exact .of_block rfl
  | receiveIpc ptr =>
      rcases k.receiveIpc_cases ptr with
        ⟨err, -, heq, -⟩ | ⟨sender, -, -, heq⟩ | ⟨sender, -, -, heq⟩ | ⟨-, heq⟩
      · rw [perform, heq]
        exact .of_work rfl
      · rw [perform, heq]
        exact .of_work rfl
      · rw [perform, heq]
        exact .of_work rfl
      · rw [perform, heq]
        exact .of_block rfl
  | replyIpc target ptr =>
      rcases k.replyIpc_cases target ptr with ⟨err, -, heq, -⟩ | ⟨target', -, -, -, heq⟩
      · rw [perform, heq]
        exact .of_work rfl
      · rw [perform, heq]
        exact .of_work rfl
  | create new memory =>
      rcases k.create_cases new memory with ⟨-, heq⟩ | ⟨i, hfills, -, -⟩
      · rw [perform, heq]
        exact .of_work rfl
      · exact .of_work hfills.current
  | createThread entry pml4 userStack stack memory =>
      rcases k.createThread_cases entry pml4 userStack stack memory with
        ⟨-, heq⟩ | ⟨i, hfills, -⟩
      · rw [perform, heq]
        exact .of_work rfl
      · exact .of_work hfills.current
  | exitProcess code => exact .of_block rfl
  | killProcess pid =>
      rcases k.killProcess_cases pid with ⟨-, heq⟩ | ⟨victim, -, -, -, heq⟩
      · rw [perform, heq]
        exact .of_work rfl
      · rw [perform, heq]
        exact .of_work rfl

/-- Whatever happens next in the kernel is a step of the scheduler. -/
theorem Step.scheduled {e : Action × List Event} (step : Step k e k') :
    Scheduled k (k.switchedTo k') k' := by
  obtain ⟨action, es⟩ := e
  unfold Step act at step
  cases action with
  | call c =>
      dsimp only at step
      split at step
      · cases step
        exact k.perform_scheduled c
      · cases step
  | resume =>
      dsimp only at step
      split at step
      · cases step
        exact .of_work rfl
      · cases step
  | halt =>
      dsimp only at step
      split at step
      · cases step
        exact .of_block rfl
      · cases step

/-- Over a run of the kernel itself the bound holds as well. -/
theorem switches_length_lt_of_steps (waits : k₀.current ≠ p)
    (run : Run (fun k l k' => (∃ e, Step k e k') ∧ l = k.switchedTo k' ∧
      (k'.table p).state = .runnable) k₀ h k)
    (notYet : p ∉ switches h) : (switches h).length < maxProcesses := by
  refine switches_length_lt waits (run.mono ?_) notYet
  rintro k l k' ⟨⟨e, step⟩, rfl, ready⟩
  exact ⟨step.scheduled, ready⟩

/-! ## The bound -/

/-- While a process is runnable without running, the CPU is given to other processes at
most `MAX_PROCESSES - 1` times. -/
theorem roundRobin_bound (waits : k₀.current ≠ p) (run : Run (KeepsReady p) k₀ h k)
    (notYet : p ∉ switches h) : (switches h).length ≤ maxProcesses - 1 :=
  Nat.le_sub_one_of_lt (switches_length_lt waits run notYet)

/-- Three runnable processes, of which the first runs. -/
def threeReady : Kernel where
  table i := if i.val < 3 then { state := .runnable } else .empty
  current := 0
  mem := ⟨fun _ addr => addr, fun _ => 0⟩
  tickCount := 0

/-- The first process yields to the second while the third one waits. -/
theorem roundRobin_bound_threeReady :
    (switches [threeReady.switchedTo threeReady.yieldCpu]).length ≤ maxProcesses - 1 := by
  have hready : (threeReady.yieldCpu.table 2).state = .runnable := yieldCpu_state threeReady 2
  have hrun : Run (KeepsReady 2) threeReady [threeReady.switchedTo threeReady.yieldCpu]
      threeReady.yieldCpu := .snoc (h := []) .nil ⟨.yieldCpu rfl, hready⟩
  refine roundRobin_bound (by decide) hrun ?_
  decide +kernel

end Kernel

end PureOS.Process
