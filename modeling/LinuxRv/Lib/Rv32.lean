import LinuxRv.Lib.ByteMemory

/-!
The part of RV32 with machine-mode CSRs that trap code is written in.

A program is a list of assembly lines. Branches go forward to a numbered local
label, as `1f` does, so a run is structurally recursive on the list: it is
either executing or skipping ahead to a label. Positions inside the list are
not program counters; `Machine.pc` is the counter of the code a trap
interrupts, saved in `mepc` by the hardware and taken back from it by `mret`.

Saving and restoring a register file is a long run of stores or loads against
one base register. The two block rules at the end execute such a run as a
whole: what each slot, or each register, holds afterwards.
-/

namespace LinuxRv.Rv32

open ByteMemory List

abbrev Reg := Fin 32

inductive Mode
  | user
  | machine
  deriving DecidableEq, Repr

inductive Csr
  | mstatus
  | mepc
  | mcause
  | mscratch
  | satp
  | fcsr
  deriving DecidableEq, Repr

/-- Architectural state of the hart and physical memory. `x 0` is never read:
`Machine.reg` returns zero for it. Of `fcsr` only the low eight bits exist. -/
@[ext] structure Machine where
  x : Reg → Word
  f : Reg → BitVec 64
  fcsr : BitVec 8
  pc : Word
  mode : Mode
  mstatus : Word
  mepc : Word
  mcause : Word
  mscratch : Word
  satp : Word
  mem : Mem

inductive Instr
  | label (l : ℕ)
  | bnez (rs : Reg) (l : ℕ)
  | beqz (rs : Reg) (l : ℕ)
  | j (l : ℕ)
  | lw (rd : Reg) (off : ℕ) (rs : Reg)
  | sw (rs' : Reg) (off : ℕ) (rs : Reg)
  | fld (fd : Reg) (off : ℕ) (rs : Reg)
  | fsd (fs : Reg) (off : ℕ) (rs : Reg)
  | li (rd : Reg) (imm : Word)
  | la (rd : Reg) (symbol : String)
  | lui (rd : Reg) (imm : BitVec 20)
  | mv (rd rs : Reg)
  | addi (rd rs : Reg) (imm : Word)
  | andi (rd rs : Reg) (imm : Word)
  | srli (rd rs : Reg) (shamt : ℕ)
  | or (rd rs rs' : Reg)
  | add (rd rs rs' : Reg)
  | csrr (rd : Reg) (c : Csr)
  | csrw (c : Csr) (rs : Reg)
  | csrs (c : Csr) (rs : Reg)
  | csrrw (rd : Reg) (c : Csr) (rs : Reg)
  | call (symbol : String)
  | sfenceVma
  | mret
  | ret

/-- What the assembly refers to by name: the address of a symbol and the
effect of calling a function. -/
structure Env where
  addr : String → Word
  callee : String → Machine → Machine

def Machine.reg (m : Machine) (r : Reg) : Word := if r = 0 then 0 else m.x r

def Machine.setReg (m : Machine) (r : Reg) (v : Word) : Machine :=
  { m with x := fun r' => if r' = r then v else m.x r' }

def Machine.setF (m : Machine) (r : Reg) (v : BitVec 64) : Machine :=
  { m with f := fun r' => if r' = r then v else m.f r' }

def Machine.setMem (m : Machine) (μ : Mem) : Machine := { m with mem := μ }

def Machine.csr (m : Machine) : Csr → Word
  | .mstatus => m.mstatus
  | .mepc => m.mepc
  | .mcause => m.mcause
  | .mscratch => m.mscratch
  | .satp => m.satp
  | .fcsr => m.fcsr.setWidth 32

def Machine.setCsr (m : Machine) (c : Csr) (v : Word) : Machine :=
  match c with
  | .mstatus => { m with mstatus := v }
  | .mepc => { m with mepc := v }
  | .mcause => { m with mcause := v }
  | .mscratch => { m with mscratch := v }
  | .satp => { m with satp := v }
  | .fcsr => { m with fcsr := v.setWidth 8 }

/-! ### Traps in hardware -/

/-- The two bits of `mstatus.MPP` for a mode. -/
def Mode.mpp : Mode → Word
  | .user => 0
  | .machine => 3

/-- `mstatus.MPP`, bits 12:11. -/
def mppOf (ms : Word) : Word := (ms >>> 11) &&& 3

/-- `mstatus` after a trap out of `mode`: MPP is the mode left, MPIE takes MIE
and MIE is cleared. -/
def trapMstatus (ms : Word) (mode : Mode) : Word :=
  (ms &&& 0xffffe777) ||| (mode.mpp <<< 11) ||| ((ms &&& 8) <<< 4)

/-- The hardware's part of taking a trap with the given cause. -/
def Machine.takeTrap (m : Machine) (cause : Word) : Machine :=
  { m with
    mepc := m.pc
    mcause := cause
    mstatus := trapMstatus m.mstatus m.mode
    mode := .machine }

/-- `mret`: back to `mepc` in the mode MPP names; MIE takes MPIE, MPIE is set
and MPP becomes user. -/
def Machine.mret (m : Machine) : Machine :=
  { m with
    pc := m.mepc
    mode := if mppOf m.mstatus = 0 then .user else .machine
    mstatus := (m.mstatus &&& 0xffffe777) ||| ((m.mstatus &&& 0x80) >>> 4) ||| 0x80 }

/-! ### Execution -/

/-- One line that is neither a label nor a branch. -/
def exec (env : Env) (m : Machine) : Instr → Machine
  | .lw rd off rs => m.setReg rd (load32 m.mem (m.reg rs + .ofNat 32 off))
  | .sw rs' off rs => m.setMem (store32 m.mem (m.reg rs + .ofNat 32 off) (m.reg rs'))
  | .fld fd off rs => m.setF fd (load64 m.mem (m.reg rs + .ofNat 32 off))
  | .fsd fs off rs => m.setMem (store64 m.mem (m.reg rs + .ofNat 32 off) (m.f fs))
  | .li rd imm => m.setReg rd imm
  | .la rd symbol => m.setReg rd (env.addr symbol)
  | .lui rd imm => m.setReg rd (imm.setWidth 32 <<< 12)
  | .mv rd rs => m.setReg rd (m.reg rs)
  | .addi rd rs imm => m.setReg rd (m.reg rs + imm)
  | .andi rd rs imm => m.setReg rd (m.reg rs &&& imm)
  | .srli rd rs shamt => m.setReg rd (m.reg rs >>> shamt)
  | .or rd rs rs' => m.setReg rd (m.reg rs ||| m.reg rs')
  | .add rd rs rs' => m.setReg rd (m.reg rs + m.reg rs')
  | .csrr rd c => m.setReg rd (m.csr c)
  | .csrw c rs => m.setCsr c (m.reg rs)
  | .csrs c rs => m.setCsr c (m.csr c ||| m.reg rs)
  | .csrrw rd c rs => (m.setCsr c (m.reg rs)).setReg rd (m.csr c)
  | .call symbol => env.callee symbol m
  | .mret => m.mret
  | .ret => { m with pc := m.reg 1 }
  | .sfenceVma | .label _ | .bnez _ _ | .beqz _ _ | .j _ => m

/-- The label a line branches to, if it branches. -/
def target (m : Machine) : Instr → Option ℕ
  | .bnez rs l => if m.reg rs = 0 then none else some l
  | .beqz rs l => if m.reg rs = 0 then some l else none
  | .j l => some l
  | _ => none

def Instr.isLabel (l : ℕ) : Instr → Bool
  | .label l' => l' = l
  | _ => false

/-- Run the lines in order. The second argument is the label a taken branch is
skipping ahead to. -/
def run (env : Env) : List Instr → Option ℕ → Machine → Machine
  | [], _, m => m
  | i :: is, none, m => run env is (target m i) (exec env m i)
  | i :: is, some l, m => run env is (if i.isLabel l then none else some l) m

@[simp] theorem run_nil (env : Env) (l : Option ℕ) (m : Machine) : run env [] l m = m := by
  cases l <;> rfl

theorem run_cons (env : Env) (i : Instr) (is : List Instr) (m : Machine) :
    run env (i :: is) none m = run env is (target m i) (exec env m i) := rfl

theorem run_skip (env : Env) (l : ℕ) (i : Instr) (is : List Instr) (m : Machine) :
    run env (i :: is) (some l) m = run env is (if i.isLabel l then none else some l) m := rfl

/-! ### Reading an updated machine -/

section

variable (m : Machine) (r r' : Reg) (v : Word) (d : BitVec 64)

theorem reg_of_ne_zero {r : Reg} (h : r ≠ 0) : m.reg r = m.x r := if_neg h

@[simp] theorem reg_setReg (h : r ≠ 0) :
    (m.setReg r v).reg r' = if r' = r then v else m.reg r' := by
  unfold Machine.reg Machine.setReg
  by_cases h0 : r' = 0
  · have hne : (0 : Reg) ≠ r := fun e => h e.symm
    simp [h0, hne]
  · simp [h0]

@[simp] theorem csr_setReg (c : Csr) : (m.setReg r v).csr c = m.csr c := by
  cases c <;> rfl

@[simp] theorem x_setReg : (m.setReg r v).x r' = if r' = r then v else m.x r' := rfl
@[simp] theorem f_setReg : (m.setReg r v).f = m.f := rfl
@[simp] theorem mode_setReg : (m.setReg r v).mode = m.mode := rfl
@[simp] theorem mem_setReg : (m.setReg r v).mem = m.mem := rfl


@[simp] theorem reg_setMem (μ : Mem) : (m.setMem μ).reg r = m.reg r := rfl
@[simp] theorem f_setMem (μ : Mem) : (m.setMem μ).f = m.f := rfl
@[simp] theorem mode_setMem (μ : Mem) : (m.setMem μ).mode = m.mode := rfl
@[simp] theorem mem_setMem (μ : Mem) : (m.setMem μ).mem = μ := rfl

@[simp] theorem csr_setMem (μ : Mem) (c : Csr) : (m.setMem μ).csr c = m.csr c := by
  cases c <;> rfl

@[simp] theorem reg_setCsr (c : Csr) : (m.setCsr c v).reg r = m.reg r := by
  cases c <;> rfl

@[simp] theorem x_setCsr (c : Csr) : (m.setCsr c v).x = m.x := by
  cases c <;> rfl

@[simp] theorem f_setCsr (c : Csr) : (m.setCsr c v).f = m.f := by
  cases c <;> rfl

@[simp] theorem pc_setCsr (c : Csr) : (m.setCsr c v).pc = m.pc := by
  cases c <;> rfl

@[simp] theorem mode_setCsr (c : Csr) : (m.setCsr c v).mode = m.mode := by
  cases c <;> rfl

@[simp] theorem mem_setCsr (c : Csr) : (m.setCsr c v).mem = m.mem := by
  cases c <;> rfl

/-- A CSR other than `fcsr` reads back what was written; `fcsr` keeps eight
bits of it. -/
theorem csr_setCsr (c c' : Csr) : (m.setCsr c v).csr c' =
    if c' = c then (if c = .fcsr then (v.setWidth 8).setWidth 32 else v) else m.csr c' := by
  cases c <;> cases c' <;> rfl

@[simp] theorem fcsr_setReg : (m.setReg r v).fcsr = m.fcsr := rfl
@[simp] theorem fcsr_setCsr_fcsr : (m.setCsr .fcsr v).fcsr = v.setWidth 8 := rfl

@[simp] theorem reg_mret : m.mret.reg r = m.reg r := rfl
@[simp] theorem f_mret : m.mret.f = m.f := rfl
@[simp] theorem fcsr_mret : m.mret.fcsr = m.fcsr := rfl
@[simp] theorem pc_mret : m.mret.pc = m.csr .mepc := rfl
@[simp] theorem mode_mret :
    m.mret.mode = if mppOf (m.csr .mstatus) = 0 then .user else .machine := rfl

end

/-! ### Blocks of stores and loads

`sws base` and `lws base` are the save and restore sequences for a list of
(register, offset) pairs, `fsds` and `flds` their floating-point versions. -/

def sws (base : Reg) (l : List (Reg × ℕ)) : List Instr := l.map fun p => .sw p.1 p.2 base

def lws (base : Reg) (l : List (Reg × ℕ)) : List Instr := l.map fun p => .lw p.1 p.2 base

def fsds (base : Reg) (l : List (Reg × ℕ)) : List Instr := l.map fun p => .fsd p.1 p.2 base

def flds (base : Reg) (l : List (Reg × ℕ)) : List Instr := l.map fun p => .fld p.1 p.2 base

/-- Memory after a block of word stores. -/
def sws.mem (m : Machine) (base : Reg) (l : List (Reg × ℕ)) : Mem :=
  l.foldl (fun μ p => store32 μ (m.reg base + .ofNat 32 p.2) (m.reg p.1)) m.mem

/-- Memory after a block of double-word stores. -/
def fsds.mem (m : Machine) (base : Reg) (l : List (Reg × ℕ)) : Mem :=
  l.foldl (fun μ p => store64 μ (m.reg base + .ofNat 32 p.2) (m.f p.1)) m.mem

variable {env : Env} {rest : List Instr}

theorem run_sws (base : Reg) (l : List (Reg × ℕ)) (m : Machine) :
    run env (sws base l ++ rest) none m = run env rest none (m.setMem (sws.mem m base l)) := by
  induction l generalizing m with
  | nil => rfl
  | cons p l ih => exact ih _

theorem run_fsds (base : Reg) (l : List (Reg × ℕ)) (m : Machine) :
    run env (fsds base l ++ rest) none m = run env rest none (m.setMem (fsds.mem m base l)) := by
  induction l generalizing m with
  | nil => rfl
  | cons p l ih => exact ih _

/-- What a block of loads puts into a register file. -/
def loadAll {α : Type} (v : ℕ → α) (x : Reg → α) (l : List (Reg × ℕ)) : Reg → α :=
  l.foldl (fun x p r => if r = p.1 then v p.2 else x r) x

theorem loadAll_of_ne {α : Type} {v : ℕ → α} {x : Reg → α} {l : List (Reg × ℕ)} {r : Reg}
    (h : ∀ p ∈ l, p.1 ≠ r) : loadAll v x l r = x r := by
  induction l generalizing x with
  | nil => rfl
  | cons p l ih =>
    refine (ih fun q hq => h q (mem_cons_of_mem p hq)).trans (if_neg ?_)
    exact (h p mem_cons_self).symm

theorem loadAll_of_mem {α : Type} {v : ℕ → α} {x : Reg → α} {l : List (Reg × ℕ)}
    (hnd : (l.map Prod.fst).Nodup) {p : Reg × ℕ} (hp : p ∈ l) : loadAll v x l p.1 = v p.2 := by
  induction l generalizing x with
  | nil => cases hp
  | cons q l ih =>
    rw [map_cons, nodup_cons] at hnd
    rcases mem_cons.mp hp with rfl | hp
    · -- a later load into the same register is excluded by `Nodup`
      have hlast (q) (hq : q ∈ l) (he : q.1 = p.1) : False := hnd.1 (he ▸ mem_map_of_mem hq)
      exact (loadAll_of_ne hlast).trans (if_pos rfl)
    · exact ih hnd.2 hp

theorem run_lws (base : Reg) (l : List (Reg × ℕ)) (m : Machine) (hbase : ∀ p ∈ l, p.1 ≠ base) :
    run env (lws base l ++ rest) none m = run env rest none
      { m with x := loadAll (fun o => load32 m.mem (m.reg base + .ofNat 32 o)) m.x l } := by
  induction l generalizing m with
  | nil => rfl
  | cons p l ih =>
    have hreg (v : Word) : (m.setReg p.1 v).reg base = m.reg base := by
      simp [Machine.reg, (hbase p mem_cons_self).symm]
    refine (ih (m.setReg p.1 _) fun q hq => hbase q (mem_cons_of_mem p hq)).trans ?_
    rw [hreg]
    rfl

theorem run_flds (base : Reg) (l : List (Reg × ℕ)) (m : Machine) :
    run env (flds base l ++ rest) none m = run env rest none
      { m with f := loadAll (fun o => load64 m.mem (m.reg base + .ofNat 32 o)) m.f l } := by
  induction l generalizing m with
  | nil => rfl
  | cons p l ih => exact ih (m.setF p.1 _)

/-! ### Memory after a block of stores -/

/-- What a block of stores of `n` bytes leaves in memory. -/
def storeAll (n : ℕ) (base : Word) (v : Reg → BitVec (8 * n)) (μ : Mem) (l : List (Reg × ℕ)) : Mem :=
  l.foldl (fun μ p => storeN n μ (base + .ofNat 32 p.2) (v p.1)) μ

theorem sws.mem_eq (m : Machine) (base : Reg) (l : List (Reg × ℕ)) :
    sws.mem m base l = storeAll 4 (m.reg base) m.reg m.mem l :=
  rfl

theorem fsds.mem_eq (m : Machine) (base : Reg) (l : List (Reg × ℕ)) :
    fsds.mem m base l = storeAll 8 (m.reg base) m.f m.mem l :=
  rfl

section

variable {n : ℕ} {base : Word} {v : Reg → BitVec (8 * n)} {μ : Mem} {l : List (Reg × ℕ)}

theorem storeAll_of_le {b : Word} (h : ∀ p ∈ l, n ≤ (b - (base + .ofNat 32 p.2)).toNat) :
    storeAll n base v μ l b = μ b := by
  induction l generalizing μ with
  | nil => rfl
  | cons p l ih =>
    exact (ih fun q hq => h q (mem_cons_of_mem p hq)).trans (storeN_of_le (h p mem_cons_self))

/-- A place no store of the block touches. -/
theorem loadN_storeAll_of_disjoint {k o : ℕ} (ho : o + k ≤ 2 ^ 32)
    (hl : ∀ p ∈ l, p.2 + n ≤ 2 ^ 32 ∧ (p.2 + n ≤ o ∨ o + k ≤ p.2)) :
    loadN k (storeAll n base v μ l) (base + .ofNat 32 o) = loadN k μ (base + .ofNat 32 o) := by
  induction l generalizing μ with
  | nil => rfl
  | cons p l ih =>
    obtain ⟨hfit, hdis⟩ := hl p mem_cons_self
    exact (ih fun q hq => hl q (mem_cons_of_mem p hq)).trans
      (loadN_storeN_of_disjoint μ _ _ hfit ho hdis)

/-- Each store of a block of disjoint stores is read back. -/
theorem loadN_storeAll (hfit : ∀ p ∈ l, p.2 + n ≤ 2 ^ 32)
    (hdis : l.Pairwise fun p q => p.2 + n ≤ q.2 ∨ q.2 + n ≤ p.2) {p : Reg × ℕ} (hp : p ∈ l) :
    loadN n (storeAll n base v μ l) (base + .ofNat 32 p.2) = v p.1 := by
  induction l generalizing μ with
  | nil => cases hp
  | cons q l ih =>
    rw [pairwise_cons] at hdis
    have hrest (r : Reg × ℕ) (hr : r ∈ l) := hfit r (mem_cons_of_mem q hr)
    rcases mem_cons.mp hp with rfl | hp
    · have hp := hfit p mem_cons_self
      refine (loadN_storeAll_of_disjoint hp fun r hr => ⟨hrest r hr, (hdis.1 r hr).symm⟩).trans ?_
      exact loadN_storeN_self (by omega) _ _ _
    · exact ih hrest hdis.2 hp

end

attribute [irreducible] loadAll storeAll

end LinuxRv.Rv32
