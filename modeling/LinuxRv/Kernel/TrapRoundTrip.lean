import LinuxRv.Kernel.Trap
import Mathlib.Tactic.IntervalCases

/-!
What an interrupted context finds after a serviced trap.

`trap_entry` uses `t0` and `t1` before it has saved them, and `ret_from_trap`
uses `t0` once more to reload `fcsr` after it has restored it. The frame the
handler sees therefore holds the entry flag in the slot of `x5` and the
interrupted `sp` in the slot of `x6`; everything else is the interrupted
context. `roundTrip_context` gives the hart after `mret` exactly, and the
context survives precisely when the two clobbered registers happened to hold
those values already.
-/

namespace LinuxRv.Kernel

open ByteMemory Rv32

variable {r : Reg} {n o : ℕ} {p : Reg × ℕ}

/-! ### Bits of `mstatus` -/

theorem mppOf_trapMstatus (ms : Word) (mode : Mode) : mppOf (trapMstatus ms mode) = mode.mpp := by
  unfold mppOf trapMstatus
  apply BitVec.eq_of_getLsbD_eq
  intro i hi
  cases mode <;> interval_cases i <;> simp [Mode.mpp]

/-- Setting FS does not touch MPP. -/
theorem mppOf_or_fs (ms : Word) : mppOf (ms ||| 0x6000) = mppOf ms := by
  unfold mppOf
  apply BitVec.eq_of_getLsbD_eq
  intro i hi
  interval_cases i <;> simp

/-! ### Entry -/

/-- Where `trap_entry` puts the frame. -/
def frameBase (m : Machine) : Word :=
  (if m.mode = .user then m.mscratch else m.reg sp) + -.ofNat 32 tfSize

def fromUser (m : Machine) : Word := if m.mode = .user then 1 else 0

/-- The register file when the saves of `x3` .. `x31` begin. -/
def clobbered (m : Machine) (r : Reg) : Word :=
  if r = t1 then m.reg sp else if r = sp then frameBase m
  else if r = t0 then fromUser m else m.reg r

/-- Memory with the first four slots of the frame written. -/
def headMem (m : Machine) : Mem :=
  store32 (store32 (store32 (store32 m.mem
    (frameBase m + .ofNat 32 tfMstatus) (trapMstatus m.mstatus m.mode ||| 0x6000))
    (frameBase m + .ofNat 32 tfMepc) m.pc)
    (frameBase m + .ofNat 32 (tfX 1)) (m.reg 1))
    (frameBase m + .ofNat 32 (tfX 2)) (m.reg sp)

theorem load32_headMem_mstatus (m : Machine) :
    load32 (headMem m) (frameBase m + .ofNat 32 tfMstatus) =
      trapMstatus m.mstatus m.mode ||| 0x6000 := by
  unfold headMem
  rw [load32_store32_of_disjoint _ _ _ (by decide) (by decide) (by decide),
    load32_store32_of_disjoint _ _ _ (by decide) (by decide) (by decide),
    load32_store32_of_disjoint _ _ _ (by decide) (by decide) (by decide), load32_store32_self]

theorem load32_headMem_mepc (m : Machine) :
    load32 (headMem m) (frameBase m + .ofNat 32 tfMepc) = m.pc := by
  unfold headMem
  rw [load32_store32_of_disjoint _ _ _ (by decide) (by decide) (by decide),
    load32_store32_of_disjoint _ _ _ (by decide) (by decide) (by decide), load32_store32_self]

theorem load32_headMem_x1 (m : Machine) :
    load32 (headMem m) (frameBase m + .ofNat 32 (tfX 1)) = m.reg 1 := by
  unfold headMem
  rw [load32_store32_of_disjoint _ _ _ (by decide) (by decide) (by decide), load32_store32_self]

theorem load32_headMem_x2 (m : Machine) :
    load32 (headMem m) (frameBase m + .ofNat 32 (tfX 2)) = m.reg sp := by
  unfold headMem
  rw [load32_store32_self]

variable (env : Env) (rest : List Instr)

theorem run_trapEntryHead (m : Machine) (cause : Word) :
    ∃ m₁, run env (trapEntryHead ++ rest) none (m.takeTrap cause) = run env rest none m₁ ∧
      m₁.mem = headMem m ∧ (∀ r, m₁.reg r = clobbered m r) ∧ m₁.f = m.f ∧
      m₁.csr .fcsr = m.csr .fcsr ∧ m₁.csr .mcause = cause ∧
      m₁.csr .mscratch = (if m.mode = .user then m.reg sp else m.mscratch) ∧
      m₁.csr .satp = m.satp ∧ m₁.mode = .machine := by
  have hmpp := mppOf_trapMstatus m.mstatus m.mode
  have hreg (r : Reg) : (m.takeTrap cause).reg r = m.reg r := rfl
  have hms : (m.takeTrap cause).csr .mstatus = trapMstatus m.mstatus m.mode := rfl
  have hfcsr : (m.takeTrap cause).csr .fcsr = m.csr .fcsr := rfl
  have hmcause : (m.takeTrap cause).csr .mcause = cause := rfl
  have hmepc : (m.takeTrap cause).csr .mepc = m.pc := rfl
  have hmscratch : (m.takeTrap cause).csr .mscratch = m.mscratch := rfl
  have hsatp : (m.takeTrap cause).csr .satp = m.satp := rfl
  have hmode' : (m.takeTrap cause).mode = .machine := rfl
  have hmem : (m.takeTrap cause).mem = m.mem := rfl
  have hf : (m.takeTrap cause).f = m.f := rfl
  cases hmode : m.mode with
  | user =>
    rw [hmode] at hms
    have hbits : trapMstatus m.mstatus .user >>> 11 &&& 3#32 = 0#32 := by
      simpa [mppOf, Mode.mpp, hmode] using hmpp
    simp -implicitDefEqProofs [trapEntryHead, run_cons, run_skip, Instr.isLabel, target, exec,
      t0, t1, sp, csr_setCsr, hreg, hms, hbits, hmepc, hmscratch, hmem]
    refine ⟨_, rfl, ?_, fun r => ?_, ?_, ?_, ?_, ?_, ?_, ?_⟩
    · simp -implicitDefEqProofs [headMem, frameBase, hmode, sp]
    · simp -implicitDefEqProofs [clobbered, frameBase, fromUser, hmode, hreg, t0, t1, sp]
      grind
    · simp [hf]
    · simp [csr_setCsr, hfcsr]
    · simp [csr_setCsr, hmcause]
    · simp [csr_setCsr]
    · simp [csr_setCsr, hsatp]
    · simp [hmode']
  | machine =>
    rw [hmode] at hms
    have hbits : trapMstatus m.mstatus .machine >>> 11 &&& 3#32 = 3#32 := by
      simpa [mppOf, Mode.mpp, hmode] using hmpp
    simp -implicitDefEqProofs [trapEntryHead, run_cons, run_skip, Instr.isLabel, target, exec,
      t0, t1, sp, csr_setCsr, hreg, hms, hbits, hmepc, hmem]
    refine ⟨_, rfl, ?_, fun r => ?_, ?_, ?_, ?_, ?_, ?_, ?_⟩
    · simp -implicitDefEqProofs [headMem, frameBase, hmode, sp]
    · simp -implicitDefEqProofs [clobbered, frameBase, fromUser, hmode, hreg, t0, t1, sp]
      grind
    · simp [hf]
    · simp [csr_setCsr, hfcsr]
    · simp [csr_setCsr, hmcause]
    · simp [csr_setCsr, hmscratch]
    · simp [csr_setCsr, hsatp]
    · simp [hmode']

/-- The frame the handler is given. -/
def savedFrame (m : Machine) (cause : Word) : Trapframe where
  mstatus := trapMstatus m.mstatus m.mode ||| 0x6000
  mepc := m.pc
  x := fun r => if r = t0 then fromUser m else if r = t1 then m.reg sp else m.reg r
  mcause := cause
  fromUser := fromUser m
  f := m.f
  fcsr := m.csr .fcsr

theorem mem_slotsFromX3 (h : p ∈ slotsFromX3) : 3 ≤ p.1.1 ∧ p.2 = tfX p.1 := by
  revert p
  decide

theorem mem_slotsFromX3_of_le (h : 3 ≤ r.1) : (r, tfX r) ∈ slotsFromX3 := by
  revert r
  decide

theorem three_le_of_ne (h0 : r ≠ 0) (h1 : r ≠ 1) (h2 : r ≠ 2) : 3 ≤ r.1 := by
  revert r
  decide

theorem le_thirty_of_ne (h : r ≠ t6) : r.1 ≤ 30 := by
  revert r
  decide

theorem mem_slotsX3ToX30_of_le (h : 3 ≤ r.1) (h' : r.1 ≤ 30) : (r, tfX r) ∈ slotsX3ToX30 := by
  revert r
  decide

theorem mem_slotsF (h : p ∈ slotsF) : p.2 = tfF p.1 := by
  revert p
  decide

theorem run_trapEntryTail (m : Machine) : ∃ m₁, run env (trapEntryTail ++ rest) none m =
        run env rest none (env.callee "trap_handler" m₁) ∧
      m₁.reg sp = m.reg sp ∧
      m₁.mem = store32 (store32 (store32 m.mem (m.reg sp + .ofNat 32 tfFcsr) (m.csr .fcsr))
        (m.reg sp + .ofNat 32 tfMcause) (m.csr .mcause))
        (m.reg sp + .ofNat 32 tfFromuser) (m.reg t0) := by
  simp -implicitDefEqProofs [trapEntryTail, run_cons, target, exec, t0, t1, t3, a0, sp]
  exact ⟨_, rfl, by simp, by simp⟩

/-- A word slot outside the ones `trap_entry` fills last. -/
theorem loadN_tail (μ : Mem) (b u v w : Word) (ho : o + n ≤ 132 ∨ (140 ≤ o ∧ o + n ≤ 396)) :
    loadN n (store32 (store32 (store32 μ (b + .ofNat 32 tfFcsr) u)
      (b + .ofNat 32 tfMcause) v) (b + .ofNat 32 tfFromuser) w)
      (b + .ofNat 32 o) = loadN n μ (b + .ofNat 32 o) := by
  unfold store32 tfFcsr tfMcause tfFromuser
  rw [loadN_storeN_of_disjoint _ _ _ (by omega) (by omega) (by omega),
    loadN_storeN_of_disjoint _ _ _ (by omega) (by omega) (by omega),
    loadN_storeN_of_disjoint _ _ _ (by omega) (by omega) (by omega)]

/-- `trap_entry` calls the handler with `sp` at a frame that holds
`savedFrame`. -/
theorem run_trapEntry (m : Machine) (cause : Word) :
    ∃ m₁, run env (trapEntry ++ rest) none (m.takeTrap cause) =
        run env rest none (env.callee "trap_handler" m₁) ∧
      m₁.reg sp = frameBase m ∧ readFrame m₁.mem (frameBase m) = savedFrame m cause := by
  obtain ⟨m₁, hrun₁, hmem₁, hreg₁, hf₁, hfcsr₁, hmcause₁, -⟩ := run_trapEntryHead env
    (sws sp slotsFromX3 ++ (fsds sp slotsF ++ (trapEntryTail ++ rest))) m cause
  have hsp : m₁.reg sp = frameBase m := by rw [hreg₁]; simp [clobbered, sp, t1]
  set μ₂ := sws.mem m₁ sp slotsFromX3 with hμ₂
  set μ₃ := fsds.mem (m₁.setMem μ₂) sp slotsF with hμ₃
  obtain ⟨m₄, hrun₄, hsp₄, hmem₄⟩ := run_trapEntryTail env rest ((m₁.setMem μ₂).setMem μ₃)
  refine ⟨m₄, ?_, by rw [hsp₄]; exact hsp, ?_⟩
  · rw [← hrun₄]
    simp only [trapEntry, List.append_assoc]
    rw [hrun₁, run_sws, run_fsds]
  simp only [reg_setMem, mem_setMem, csr_setMem, hsp] at hmem₄
  -- the integer slots are below the floating-point ones
  have hlow {n o : ℕ} (ho : o + n ≤ 140) :
      loadN n μ₃ (frameBase m + .ofNat 32 o) = loadN n μ₂ (frameBase m + .ofNat 32 o) := by
    rw [← hsp, hμ₃, fsds.mem_eq]
    refine loadN_storeAll_of_disjoint (by omega) fun p hp => ?_
    have hlt := p.1.isLt
    rw [mem_slotsF hp]
    simp only [tfF]
    omega
  have hhead {n o : ℕ} (ho : o + n ≤ 16) : loadN n μ₂ (frameBase m + .ofNat 32 o) =
        loadN n (headMem m) (frameBase m + .ofNat 32 o) := by
    rw [← hsp, ← hmem₁, hμ₂, sws.mem_eq]
    refine loadN_storeAll_of_disjoint (by omega) fun p hp => ?_
    have hlt := p.1.isLt
    obtain ⟨hle, heq⟩ := mem_slotsFromX3 hp
    rw [heq]
    simp only [tfX]
    omega
  have hread {o : ℕ} (ho : o + 4 ≤ 16) : load32 m₄.mem (frameBase m + .ofNat 32 o) =
      load32 (headMem m) (frameBase m + .ofNat 32 o) := by
    rw [hmem₄]
    exact (loadN_tail _ _ _ _ _ (by omega)).trans ((hlow (by omega)).trans (hhead ho))
  -- `x3` and up
  have hsaved {r : Reg} (hr : 3 ≤ r.1) :
      load32 m₄.mem (frameBase m + .ofNat 32 (tfX r)) = clobbered m r := by
    have hlt := r.isLt
    have h : load32 μ₂ (m₁.reg sp + .ofNat 32 (tfX r)) = m₁.reg r := by
      rw [hμ₂, sws.mem_eq]
      exact loadN_storeAll (p := (r, tfX r)) (by decide) (by decide) (mem_slotsFromX3_of_le hr)
    rw [hsp, hreg₁] at h
    rw [hmem₄]
    exact (loadN_tail _ _ _ _ _ (by simp only [tfX]; omega)).trans
      ((hlow (by simp only [tfX]; omega)).trans h)
  ext1
  · exact (hread (o := tfMstatus) (by decide)).trans (load32_headMem_mstatus m)
  · exact (hread (o := tfMepc) (by decide)).trans (load32_headMem_mepc m)
  · funext r
    by_cases hr0 : r = 0
    · subst hr0
      rfl
    · simp only [readFrame, savedFrame, hr0, if_false]
      by_cases hr1 : r = 1
      · subst hr1
        exact (hread (o := tfX 1) (by decide)).trans (load32_headMem_x1 m)
      · by_cases hr2 : r = 2
        · subst hr2
          exact (hread (o := tfX 2) (by decide)).trans (load32_headMem_x2 m)
        · rw [hsaved (three_le_of_ne hr0 hr1 hr2)]
          simp only [clobbered, sp, t0, t1] at hr2 ⊢
          grind
  · simp only [readFrame, savedFrame, hmem₄]
    rw [load32_store32_of_disjoint _ _ _ (by decide) (by decide) (by decide),
      load32_store32_self, hmcause₁]
  · simp only [readFrame, savedFrame, hmem₄]
    rw [load32_store32_self, hreg₁]
    rfl
  · funext r
    have hlt := r.isLt
    have h : load64 μ₃ (m₁.reg sp + .ofNat 32 (tfF r)) = m₁.f r := by
      rw [hμ₃, fsds.mem_eq]
      exact loadN_storeAll (p := (r, tfF r)) (by decide) (by decide)
        (List.mem_map_of_mem (List.mem_finRange r))
    rw [hsp, hf₁] at h
    rw [hmem₄] at *
    exact (loadN_tail _ _ _ _ _ (by simp only [tfF]; omega)).trans h
  · simp only [readFrame, savedFrame, hmem₄]
    rw [load32_store32_of_disjoint _ _ _ (by decide) (by decide) (by decide),
      load32_store32_of_disjoint _ _ _ (by decide) (by decide) (by decide),
      load32_store32_self, hfcsr₁]

/-! ### Exit -/

/-- Memory with `ra` and `sp` of the frame at `b` stashed over `mstatus` and
`mepc`. -/
def stashMem (μ : Mem) (b : Word) : Mem :=
  store32 (store32 μ (b + .ofNat 32 tfMstatus) (load32 μ (b + .ofNat 32 (tfX 1))))
    (b + .ofNat 32 tfMepc) (load32 μ (b + .ofNat 32 (tfX 2)))

theorem loadN_stashMem (μ : Mem) (b : Word) (ho : 8 ≤ o) (ho' : o + n ≤ tfSize) :
    loadN n (stashMem μ b) (b + .ofNat 32 o) = loadN n μ (b + .ofNat 32 o) := by
  unfold stashMem store32 tfMstatus tfMepc
  unfold tfSize at ho'
  rw [loadN_storeN_of_disjoint _ _ _ (by omega) (by omega) (by omega),
    loadN_storeN_of_disjoint _ _ _ (by omega) (by omega) (by omega)]

theorem load32_stashMem_mstatus (μ : Mem) (b : Word) :
    load32 (stashMem μ b) (b + .ofNat 32 tfMstatus) = load32 μ (b + .ofNat 32 (tfX 1)) := by
  unfold stashMem
  rw [load32_store32_of_disjoint _ _ _ (by decide) (by decide) (by decide), load32_store32_self]

theorem load32_stashMem_mepc (μ : Mem) (b : Word) : load32 (stashMem μ b) (b + .ofNat 32 tfMepc) =
      load32 μ (b + .ofNat 32 (tfX 2)) := by
  unfold stashMem
  rw [load32_store32_self]

theorem run_retFromTrapHead (m : Machine) :
    ∃ m₁, run env (retFromTrapHead ++ rest) none m = run env rest none m₁ ∧
      m₁.mem = stashMem m.mem (m.reg sp) ∧ m₁.reg sp = m.reg sp ∧
      m₁.csr .mscratch = m.reg sp ∧
      m₁.csr .mstatus = load32 m.mem (m.reg sp + .ofNat 32 tfMstatus) ∧
      m₁.csr .mepc = load32 m.mem (m.reg sp + .ofNat 32 tfMepc) := by
  have hx2 (v : Word) : load32 (store32 m.mem (m.reg sp + .ofNat 32 tfMstatus) v)
      (m.reg sp + .ofNat 32 (tfX 2)) = load32 m.mem (m.reg sp + .ofNat 32 (tfX 2)) :=
    load32_store32_of_disjoint _ _ _ (by decide) (by decide) (by decide)
  simp only [sp] at hx2 ⊢
  simp -implicitDefEqProofs [retFromTrapHead, run_cons, target, exec, t0, sp, hx2]
  refine ⟨_, rfl, ?_, ?_, ?_, ?_, ?_⟩
  · simp [stashMem]
  · simp
  · simp [csr_setCsr]
  · simp [csr_setCsr]
  · simp [csr_setCsr]

/-- `satp` for a page directory. -/
def satpOf (pgdir : Word) : Word := pgdir >>> 12 ||| 0x80000000

/-- `mscratch` is left at the stack top above the frame and `t6` at the frame;
besides `ra` and `sp` only `t5` and `t6` change. -/
theorem run_retFromTrapSatp (m : Machine) :
    ∃ m₁, run env (retFromTrapSatp ++ rest) none m = run env rest none m₁ ∧
      m₁.mem = m.mem ∧ m₁.reg t6 = m.csr .mscratch ∧
      m₁.reg 1 = load32 m.mem (m.csr .mscratch + .ofNat 32 tfMstatus) ∧
      m₁.reg 2 = load32 m.mem (m.csr .mscratch + .ofNat 32 tfMepc) ∧
      (∀ r, r ≠ 1 → r ≠ 2 → r ≠ t5 → r ≠ t6 → m₁.reg r = m.reg r) ∧
      m₁.csr .mstatus = m.csr .mstatus ∧ m₁.csr .mepc = m.csr .mepc ∧
      m₁.csr .mscratch = m.csr .mscratch + .ofNat 32 tfSize ∧
      m₁.csr .satp = satpOf (load32 m.mem
        (load32 m.mem (env.addr "current") + .ofNat 32 taskPgdir)) := by
  simp -implicitDefEqProofs [retFromTrapSatp, run_cons, target, exec, t5, t6, csr_setCsr]
  refine ⟨_, rfl, ?_, ?_, ?_, ?_, ?_, ?_, ?_, ?_, ?_⟩
  · simp
  · simp
  · simp
  · simp
  · intro r h1 h2 h30 h31
    simp [h1, h2, h30, h31]
  · simp [csr_setCsr]
  · simp [csr_setCsr]
  · simp [csr_setCsr]
  · simp [csr_setCsr, satpOf]

theorem run_retFromTrapTail (m : Machine) : (run env retFromTrapTail none m).pc = m.csr .mepc ∧
      (run env retFromTrapTail none m).mode =
        (if mppOf (m.csr .mstatus) = 0 then .user else .machine) ∧
      (∀ r, (run env retFromTrapTail none m).reg r =
        if r = t6 then load32 m.mem (m.reg t6 + .ofNat 32 (tfX 31))
        else if r = t5 then load32 m.mem (m.reg t6 + .ofNat 32 (tfX 30))
        else if r = t0 then load32 m.mem (m.reg t6 + .ofNat 32 tfFcsr) else m.reg r) ∧
      (run env retFromTrapTail none m).f = m.f ∧
      (run env retFromTrapTail none m).fcsr =
        (load32 m.mem (m.reg t6 + .ofNat 32 tfFcsr)).setWidth 8 := by
  simp -implicitDefEqProofs [retFromTrapTail, run_cons, target, exec, t0, t5, t6, csr_setCsr]
  exact fun r => rfl

/-- `ret_from_trap` resumes the context of the frame `sp` points to, except
that `t0` is left holding the frame's `fcsr`. -/
theorem run_retFromTrap (m : Machine) {fr : Trapframe} (hfr : readFrame m.mem (m.reg sp) = fr) :
    (run env retFromTrap none m).pc = fr.mepc ∧
      (run env retFromTrap none m).mode = (if mppOf fr.mstatus = 0 then .user else .machine) ∧
      (∀ r, (run env retFromTrap none m).reg r = if r = t0 then fr.fcsr else fr.x r) ∧
      (run env retFromTrap none m).f = fr.f ∧
      (run env retFromTrap none m).fcsr = fr.fcsr.setWidth 8 ∧
      (run env retFromTrap none m).mscratch = m.reg sp + .ofNat 32 tfSize ∧
      (run env retFromTrap none m).satp = satpOf (load32 (stashMem m.mem (m.reg sp))
        (load32 (stashMem m.mem (m.reg sp)) (env.addr "current") + .ofNat 32 taskPgdir)) := by
  subst hfr
  obtain ⟨m₁, hrun₁, hmem₁, hsp₁, hscr₁, hms₁, hepc₁⟩ := run_retFromTrapHead env
    (lws sp slotsX3ToX30 ++ (retFromTrapSatp ++ (flds t6 slotsF ++ retFromTrapTail))) m
  let x₂ := loadAll (fun o => load32 m₁.mem (m₁.reg sp + .ofNat 32 o)) m₁.x slotsX3ToX30
  obtain ⟨m₃, hrun₃, hmem₃, ht6, hra, hsp₃, hkeep₃, hms₃, hepc₃, hscr₃, hsatp₃⟩ :=
    run_retFromTrapSatp env (flds t6 slotsF ++ retFromTrapTail) { m₁ with x := x₂ }
  let f₄ := loadAll (fun o => load64 m₃.mem (m₃.reg t6 + .ofNat 32 o)) m₃.f slotsF
  have hrun : run env retFromTrap none m = run env retFromTrapTail none { m₃ with f := f₄ } := by
    rw [← run_flds, ← hrun₃, ← run_lws sp slotsX3ToX30 m₁ (by decide), ← hrun₁]
    rfl
  obtain ⟨hpc, hmode, hreg, hf, hfcsr⟩ := run_retFromTrapTail env { m₃ with f := f₄ }
  replace ht6 : m₃.reg t6 = m.reg sp := ht6.trans hscr₁
  have hmem : m₃.mem = stashMem m.mem (m.reg sp) := hmem₃.trans hmem₁
  -- the slots above the two stashed ones are as the handler left them
  have hslot {o : ℕ} (ho : 8 ≤ o) (ho' : o + 4 ≤ tfSize) : load32 m₃.mem (m₃.reg t6 + .ofNat 32 o) =
        load32 m.mem (m.reg sp + .ofNat 32 o) := by
    rw [hmem, ht6]
    exact loadN_stashMem _ _ ho ho'
  -- the integer registers the tail does not reload
  have hx (r : Reg) (h5 : r ≠ t5) (h6 : r ≠ t6) : m₃.reg r = (readFrame m.mem (m.reg sp)).x r := by
    by_cases hr0 : r = 0
    · subst hr0
      rfl
    · simp only [readFrame, hr0, if_false]
      by_cases hr1 : r = 1
      · subst hr1
        rw [hra, ← load32_stashMem_mstatus, ← hmem₁, ← hscr₁]
        rfl
      · by_cases hr2 : r = 2
        · subst hr2
          rw [hsp₃, ← load32_stashMem_mepc, ← hmem₁, ← hscr₁]
          rfl
        · have hle := three_le_of_ne hr0 hr1 hr2
          have hle' := le_thirty_of_ne h6
          rw [hkeep₃ r hr1 hr2 h5 h6, reg_of_ne_zero _ hr0]
          refine (loadAll_of_mem (p := (r, tfX r)) (by decide)
            (mem_slotsX3ToX30_of_le hle hle')).trans ?_
          rw [hsp₁, hmem₁]
          exact loadN_stashMem _ _ (by simp only [tfX]; omega) (by simp only [tfX, tfSize]; omega)
  rw [hrun]
  refine ⟨?_, ?_, fun r => ?_, ?_, ?_, ?_, ?_⟩
  · exact hpc.trans (hepc₃.trans hepc₁)
  · rw [hmode]
    change (if mppOf (m₃.csr .mstatus) = 0 then Mode.user else Mode.machine) = _
    rw [hms₃.trans hms₁]
    rfl
  · rw [hreg]
    change (if r = t6 then load32 m₃.mem (m₃.reg t6 + _) else
      if r = t5 then load32 m₃.mem (m₃.reg t6 + _) else
      if r = t0 then load32 m₃.mem (m₃.reg t6 + _) else m₃.reg r) = _
    rw [hslot (o := tfX 31) (by decide) (by decide), hslot (o := tfX 30) (by decide) (by decide),
      hslot (o := tfFcsr) (by decide) (by decide)]
    by_cases h6 : r = t6
    · subst h6
      simp [readFrame, t6, t0]
    · by_cases h5 : r = t5
      · subst h5
        simp [readFrame, t5, t6, t0]
      · simp only [h5, h6, if_false, hx r h5 h6]
        rfl
  · funext r
    have hr : (r, tfF r) ∈ slotsF := List.mem_map_of_mem (List.mem_finRange r)
    have hlt := r.isLt
    rw [hf]
    refine (loadAll_of_mem (p := (r, tfF r)) (by decide) hr).trans ?_
    rw [ht6, hmem]
    exact loadN_stashMem _ _ (by simp only [tfF]; omega) (by simp only [tfF, tfSize]; omega)
  · rw [hfcsr]
    exact congrArg (BitVec.setWidth 8) (hslot (o := tfFcsr) (by decide) (by decide))
  · rw [← hscr₁]
    exact hscr₃
  · rw [← hmem₁]
    exact hsatp₃

/-! ### The round trip -/

/-- A `trap_handler` that services the trap and leaves the frame it was given
unmodified. It is a C function, so `sp` is as it was at the call; everything
else, other memory included, is the handler's. -/
structure ServicingHandler where
  call : Machine → Machine
  sp_eq (m : Machine) : (call m).reg sp = m.reg sp
  frame_eq (m : Machine) (k : ℕ) (hk : k < tfSize) :
    (call m).mem (m.reg sp + .ofNat 32 k) = m.mem (m.reg sp + .ofNat 32 k)

/-- A trap taken, serviced and returned from. `addr` is where the linker put
the symbols. -/
def roundTrip (addr : String → Word) (h : ServicingHandler) (m : Machine) (cause : Word) : Machine :=
  run ⟨addr, fun _ => h.call⟩ (trapEntry ++ retFromTrap) none (m.takeTrap cause)

/-- The interrupted program cannot tell `m'` from `m`: same `pc` and mode, and
the same `x1` .. `x31`, `f0` .. `f31` and `fcsr`. -/
def SameContext (m m' : Machine) : Prop :=
  m'.pc = m.pc ∧ m'.mode = m.mode ∧ (∀ r, r ≠ 0 → m'.x r = m.x r) ∧ m'.f = m.f ∧ m'.fcsr = m.fcsr

section

variable (addr : String → Word) (h : ServicingHandler) (m : Machine) (cause : Word)

/-- Everything but `t0` and `t1` survives; `t0` comes back as `fcsr` and `t1`
as the interrupted `sp`. -/
theorem roundTrip_context :
    (roundTrip addr h m cause).pc = m.pc ∧ (roundTrip addr h m cause).mode = m.mode ∧
      (∀ r, (roundTrip addr h m cause).reg r =
        if r = t0 then m.csr .fcsr else if r = t1 then m.reg sp else m.reg r) ∧
      (roundTrip addr h m cause).f = m.f ∧ (roundTrip addr h m cause).fcsr = m.fcsr := by
  obtain ⟨m₁, hrun, hsp, hframe⟩ := run_trapEntry ⟨addr, fun _ => h.call⟩ retFromTrap m cause
  have hsaved : readFrame (h.call m₁).mem ((h.call m₁).reg sp) = savedFrame m cause := by
    rw [h.sp_eq, readFrame_congr (h.frame_eq m₁), hsp, hframe]
  obtain ⟨hpc, hmode, hreg, hf, hfcsr, -⟩ := run_retFromTrap ⟨addr, fun _ => h.call⟩ _ hsaved
  replace hrun : roundTrip addr h m cause =
      run ⟨addr, fun _ => h.call⟩ retFromTrap none (h.call m₁) := hrun
  rw [hrun]
  refine ⟨hpc, ?_, fun r => ?_, hf, ?_⟩
  · refine hmode.trans ?_
    simp only [savedFrame, mppOf_or_fs, mppOf_trapMstatus]
    cases m.mode <;> rfl
  · refine (hreg r).trans ?_
    simp only [savedFrame]
    by_cases ht : r = t0 <;> simp [ht]
  · refine hfcsr.trans ?_
    simp [savedFrame, Machine.csr]

/-- The interrupted context is resumed intact exactly when the two registers
that entry and exit use as scratch already held what they are left with. -/
theorem roundTrip_sameContext_iff :
    SameContext m (roundTrip addr h m cause) ↔ m.reg t0 = m.csr .fcsr ∧ m.reg t1 = m.reg sp := by
  obtain ⟨hpc, hmode, hreg, hf, hfcsr⟩ := roundTrip_context addr h m cause
  have hx (r : Reg) (hr : r ≠ 0) : (roundTrip addr h m cause).x r =
      if r = t0 then m.csr .fcsr else if r = t1 then m.reg sp else m.x r := by
    rw [← reg_of_ne_zero _ hr, ← reg_of_ne_zero _ hr, hreg]
  constructor
  · rintro ⟨-, -, hsame, -, -⟩
    have h0 := (hx t0 (by decide)).symm.trans (hsame t0 (by decide))
    have h1 := (hx t1 (by decide)).symm.trans (hsame t1 (by decide))
    exact ⟨h0.symm, h1.symm⟩
  · rintro ⟨h0, h1⟩
    refine ⟨hpc, hmode, fun r hr => ?_, hf, hfcsr⟩
    rw [hx r hr]
    by_cases hr0 : r = t0
    · subst hr0
      rw [if_pos rfl, ← h0, reg_of_ne_zero _ hr]
    · by_cases hr1 : r = t1
      · subst hr1
        rw [if_neg hr0, if_pos rfl, ← h1, reg_of_ne_zero _ hr]
      · simp [hr0, hr1]

end

/-- The handler that does nothing. -/
def idleHandler : ServicingHandler where
  call := id
  sp_eq _ := rfl
  frame_eq _ _ _ := rfl

/-- A user program about to execute at `0x1000`, with 5 in `t1` and all other
registers zero. -/
def interruptedLoop : Machine where
  x := fun r => if r = t1 then 5 else 0
  f := fun _ => 0
  fcsr := 0
  pc := 0x1000
  mode := .user
  mstatus := 0x6080
  mepc := 0
  mcause := 0
  mscratch := 0x80101000
  satp := 0
  mem := fun _ => 0

/-- A timer interrupt leaves the program with 0, its `sp`, in `t1`. -/
theorem timer_clobbers_t1 : ¬ SameContext interruptedLoop
    (roundTrip (fun _ => 0) idleHandler interruptedLoop 0x80000007) := by
  rintro ⟨-, -, hsame, -, -⟩
  obtain ⟨-, -, hreg, -, -⟩ := roundTrip_context (fun _ => 0) idleHandler interruptedLoop 0x80000007
  have h := hsame t1 (by decide)
  rw [← reg_of_ne_zero _ (by decide), hreg] at h
  exact absurd h (by decide)

end LinuxRv.Kernel
