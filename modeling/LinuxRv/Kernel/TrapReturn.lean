import LinuxRv.Kernel.TrapRoundTrip
import LinuxRv.Proc.Exec
import LinuxRv.Proc.Fork

/-!
Interrupts during `ret_from_trap`.

`csrw mstatus` takes the frame's `mstatus` as a whole, so from there on, for
about a hundred instructions, interrupts are enabled if `MIE` is set in the
frame. A trap clears the bit before `trap_entry` saves it and `fork` copies the
frame of a trap; the frame `do_execve` builds has the bit set.
-/

namespace LinuxRv.Kernel

open ByteMemory Rv32 Function

/-- `mstatus.MIE` -/
def mie (ms : Word) : Bool := ms.getLsbD 3

/-- Lines that leave `mstatus` as it is. -/
def keepsMstatus : Instr → Bool
  | .csrw .mstatus _ | .csrs .mstatus _ | .csrrw _ .mstatus _ | .call _ | .mret => false
  | _ => true

section

variable (env : Env)

theorem mstatus_exec {i : Instr} (h : keepsMstatus i = true) (m : Machine) :
    (exec env m i).mstatus = m.mstatus := by
  cases i with
  | csrw c rs => cases c <;> first | rfl | cases h
  | csrs c rs => cases c <;> first | rfl | cases h
  | csrrw rd c rs => cases c <;> first | rfl | cases h
  | call symbol => cases h
  | mret => cases h
  | _ => rfl

theorem mstatus_run {l : List Instr} (h : ∀ i ∈ l, keepsMstatus i = true) (o : Option ℕ)
    (m : Machine) : (run env l o m).mstatus = m.mstatus := by
  induction l generalizing o m with
  | nil => rw [run_nil]
  | cons i l ih =>
    have hl : ∀ i ∈ l, keepsMstatus i = true := fun i hi => h i (.tail _ hi)
    cases o with
    | none => rw [run_cons, ih hl, mstatus_exec env (h i (.head _))]
    | some n => rw [run_skip, ih hl]

/-- Number of instructions up to `csrw mstatus`. -/
def mstatusWritten : ℕ := 3

/-- The machine after `n` instructions of `ret_from_trap`. -/
def returning (m : Machine) (n : ℕ) : Machine := run env (retFromTrap.take n) none m

/-- From `csrw mstatus` to `mret` the frame's `mstatus` is in force. -/
theorem mstatus_returning (m : Machine) {n : ℕ} (hn : mstatusWritten ≤ n)
    (hlt : n < retFromTrap.length) :
    (returning env m n).mstatus = (readFrame m.mem (m.reg sp)).mstatus := by
  obtain ⟨k, rfl⟩ := Nat.exists_eq_add_of_le' hn
  have hkeeps : ∀ i ∈ (retFromTrap.drop 3).take 86, keepsMstatus i = true := by decide
  have hk : k ≤ 86 := by
    have : retFromTrap.length = 90 := by decide
    unfold mstatusWritten at hlt
    omega
  have htake : retFromTrap.take (k + mstatusWritten) =
      .csrw .mscratch sp :: .lw t0 tfMstatus sp :: .csrw .mstatus t0 ::
        (retFromTrap.drop 3).take k := rfl
  rw [returning, htake]
  simp only [run_cons, target]
  refine (mstatus_run env (fun i hi => hkeeps i (List.take_subset_take_left _ hk hi)) _ _).trans ?_
  simp -implicitDefEqProofs [exec, t0, sp, Machine.setCsr, Machine.setReg, Machine.reg, readFrame]

/-- Interrupts stay disabled up to `mret`, and the context resumed is the one in
the frame. -/
def ReturnsWhole (m : Machine) : Prop :=
  let fr := readFrame m.mem (m.reg sp)
  let m' := run env retFromTrap none m
  (∀ n, mstatusWritten ≤ n → n < retFromTrap.length → mie (returning env m n).mstatus = false) ∧
    m'.pc = fr.mepc ∧ (∀ r, m'.reg r = fr.x r) ∧ m'.f = fr.f ∧ m'.fcsr = fr.fcsr.setWidth 8

/-- The frame's `MIE` decides about interrupts. The registers are the frame's
except for `t0`, which is left with the frame's `fcsr`. -/
theorem return_whole_iff (m : Machine) : ReturnsWhole env m ↔
      mie (readFrame m.mem (m.reg sp)).mstatus = false ∧
        (readFrame m.mem (m.reg sp)).x t0 = (readFrame m.mem (m.reg sp)).fcsr := by
  obtain ⟨hpc, -, hreg, hf, hfcsr, -⟩ := run_retFromTrap env m rfl
  constructor
  · rintro ⟨hmie, -, hx, -, -⟩
    have hwritten : mstatusWritten < retFromTrap.length := by decide
    refine ⟨?_, ?_⟩
    · rw [← mstatus_returning env m le_rfl hwritten]
      exact hmie _ le_rfl hwritten
    · rw [← hx t0, hreg, if_pos rfl]
  · rintro ⟨hmie, ht0⟩
    refine ⟨fun n hn hlt => ?_, hpc, fun r => ?_, hf, hfcsr⟩
    · rw [mstatus_returning env m hn hlt]
      exact hmie
    · rw [hreg]
      split_ifs with hr
      · rw [hr, ht0]
      · rfl

end

/-! ### Where the frames come from -/

/-- A trap clears `MIE` before the frame is saved. -/
theorem mie_savedFrame (m : Machine) (cause : Word) : mie (savedFrame m cause).mstatus = false := by
  simp only [mie, savedFrame, trapMstatus]
  cases m.mode <;> simp

/-- `fork` copies `mstatus` from the frame of the parent. -/
theorem mie_childTask (r : Word) (k : Proc.Kernel) (cur : Proc.Task) (page pgdir : Word) :
    mie ((Proc.childTask r k cur page pgdir).tf Proc.tfMstatus) = mie (cur.tf Proc.tfMstatus) := by
  dsimp only [Proc.childTask]
  rw [update_of_ne (by decide), update_of_ne (by decide)]

/-- `do_execve` sets `MIE`. -/
theorem mie_startFrame (entry p : Word) : mie (Proc.startFrame entry p Proc.tfMstatus) = true := by
  rw [Proc.startFrame, update_of_ne (by decide), update_of_ne (by decide),
    update_of_ne (by decide), update_self]
  decide

/-- The frame of a task as it lies in memory, at address 0. -/
def frameMem (tf : Fin 100 → Word) : Mem := fun a =>
  if h : a.toNat / 4 < 100 then (tf ⟨a.toNat / 4, h⟩).extractLsb' (8 * (a.toNat % 4)) 8 else 0

/-- A hart about to return into a program that `do_execve` has loaded. -/
def startsProgram (entry p : Word) : Machine :=
  { x := fun _ => 0, f := fun _ => 0, fcsr := 0, pc := 0, mode := .machine
    mstatus := 0x6000, mepc := 0, mcause := 0, mscratch := 0, satp := 0
    mem := frameMem (Proc.startFrame entry p) }

/-- A timer tick can be taken in the middle of the return into a new program. -/
theorem return_to_program_interrupted :
    ¬ ReturnsWhole ⟨fun _ => 0, fun _ m => m⟩ (startsProgram 0x10000 0x1ff00) := by
  rintro ⟨hmie, -⟩
  have h := hmie mstatusWritten le_rfl (by decide)
  rw [mstatus_returning _ _ le_rfl (by decide)] at h
  exact absurd h (by decide)


end LinuxRv.Kernel
