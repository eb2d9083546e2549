import LinuxRv.Kernel.TrapRoundTrip

/-!
`sp`, `mscratch` and `satp` over `trap_entry`, `ret_from_trap` and `switch_to`.

Each of the three pieces of assembly is one step for the kernel: a trap out of
user mode swaps `sp` with `mscratch`, a return leaves `mscratch` above the frame
and takes `satp` from the current task, and a switch makes another task current
and goes on with its stack.
-/

namespace LinuxRv.Kernel

open ByteMemory Rv32 Machine Function

/-! ### `switch_to` -/

/-- `ra`, `sp` and `s0` to `s11` with their places in `struct kernel_context`. -/
def kctxSlots : List (Reg × ℕ) :=
  [(1, 0), (2, 4), (8, 8), (9, 12), (18, 16), (19, 20), (20, 24), (21, 28), (22, 32), (23, 36),
    (24, 40), (25, 44), (26, 48), (27, 52)]

def switchToHead : List Instr := [.la t0 "current", .lw t1 0 t0]

def switchToTail : List Instr :=
  -- mscratch = top of the next task's kernel stack
  [ .lui t0 1, .add t0 a0 t0, .csrw .mscratch t0, .ret ]

def switchTo : List Instr :=
  switchToHead ++ (sws t1 kctxSlots ++ (.sw a0 0 t0 :: (lws a0 kctxSlots ++ switchToTail)))

/-! ### The registers that have to stay in step -/

@[ext] structure Hart where
  sp : Word
  mscratch : Word
  satp : Word
  mode : Mode

/-- The hart as the kernel's C code sees it. -/
def hartOf (m : Machine) : Hart := ⟨m.reg sp, m.mscratch, m.satp, m.mode⟩

/-- A trap, up to the call of `trap_handler`. -/
def Hart.trap (h : Hart) : Hart :=
  match h.mode with
  | .user => ⟨h.mscratch + -.ofNat 32 tfSize, h.sp, h.satp, .machine⟩
  | .machine => ⟨h.sp + -.ofNat 32 tfSize, h.mscratch, h.satp, .machine⟩

/-- A return with the frame at `sp`, which holds `sp'` and the mode to return to. -/
def Hart.ret (h : Hart) (pgdir sp' : Word) (mode : Mode) : Hart :=
  ⟨sp', h.sp + .ofNat 32 tfSize, satpOf pgdir, mode⟩

/-- A switch to the task at `page`, whose stack was left at `ksp`. -/
def Hart.switch (h : Hart) (page ksp : Word) : Hart := ⟨ksp, page + 4096, h.satp, h.mode⟩

/-! ### The assembly as steps of the hart -/

variable (env : Env)

/-- `trap_entry` with a handler that returns at once. -/
theorem hartOf_trapEntry (addr : String → Word) (m : Machine) (cause : Word) :
    hartOf (run ⟨addr, fun _ m => m⟩ trapEntry none (m.takeTrap cause)) = (hartOf m).trap := by
  obtain ⟨m₁, hrun₁, -, hreg₁, -, -, -, hscr₁, hsatp₁, hmode₁⟩ := run_trapEntryHead
    ⟨addr, fun _ m => m⟩ (sws sp slotsFromX3 ++ (fsds sp slotsF ++ trapEntryTail)) m cause
  have htail (m : Machine) : hartOf (run ⟨addr, fun _ m => m⟩ trapEntryTail none m) = hartOf m := by
    simp [trapEntryTail, run_cons, target, exec, hartOf, sp, t1, t3, a0, setReg, setMem, reg]
  rw [trapEntry, hrun₁, run_sws, run_fsds, htail]
  change (⟨m₁.reg sp, m₁.csr .mscratch, m₁.csr .satp, m₁.mode⟩ : Hart) = _
  rw [hreg₁, hscr₁, hsatp₁, hmode₁, show clobbered m sp = frameBase m from rfl]
  cases hmode : m.mode <;> simp [hartOf, Hart.trap, frameBase, hmode]

/-- `ret_from_trap`, with the frame `sp` points to. -/
theorem hartOf_retFromTrap (m : Machine) : hartOf (run env retFromTrap none m) =
    (hartOf m).ret (load32 (stashMem m.mem (m.reg sp))
          (load32 (stashMem m.mem (m.reg sp)) (env.addr "current") + .ofNat 32 taskPgdir))
        ((readFrame m.mem (m.reg sp)).x sp)
        (if mppOf (readFrame m.mem (m.reg sp)).mstatus = 0 then .user else .machine) := by
  obtain ⟨-, hmode, hreg, -, -, hscr, hsatp⟩ := run_retFromTrap env m rfl
  generalize run env retFromTrap none m = m' at hmode hreg hscr hsatp
  ext : 1
  · exact (hreg sp).trans (if_neg (by decide))
  · exact hscr
  · exact hsatp
  · exact hmode

/-- Memory once `switch_to` has saved the registers and set `current`. -/
def switchMem (env : Env) (m : Machine) : Mem :=
  let prev := load32 m.mem (env.addr "current")
  store32 (kctxSlots.foldl (fun μ p => store32 μ (prev + .ofNat 32 p.2) (m.reg p.1)) m.mem)
    (env.addr "current") (m.reg a0)

theorem run_switchToTail (m : Machine) : ∃ m', run env switchToTail none m = m' ∧ m'.mem = m.mem ∧
    (∀ r, r ≠ t0 → m'.reg r = m.reg r) ∧ m'.pc = m.reg 1 ∧ m'.mscratch = m.reg a0 + 4096 ∧
    m'.satp = m.satp ∧ m'.mode = m.mode := by
  refine ⟨_, rfl, rfl, fun r hr => ?_, rfl, ?_, rfl, rfl⟩
  · simp only [t0] at hr
    simp [switchToTail, run_cons, target, exec, t0, a0, setReg, setCsr, reg, hr]
  · simp [switchToTail, run_cons, target, exec, t0, a0, setReg, setCsr, reg]

/-- `switch_to`, for the task `a0` points to. -/
theorem run_switchTo (m : Machine) : ∃ m', run env switchTo none m = m' ∧ m'.mem = switchMem env m ∧
    (∀ p ∈ kctxSlots, m'.reg p.1 = load32 (switchMem env m) (m.reg a0 + .ofNat 32 p.2)) ∧
    m'.pc = m'.reg 1 ∧ m'.mscratch = m.reg a0 + 4096 ∧ m'.satp = m.satp ∧ m'.mode = m.mode := by
  -- the machine when the loads of the next task's registers begin
  obtain ⟨m₃, hrun₃, hmem₃, ha0, hsatp₃, hmode₃⟩ : ∃ m₃,
      run env switchTo none m = run env (lws a0 kctxSlots ++ switchToTail) none m₃ ∧
        m₃.mem = switchMem env m ∧ m₃.reg a0 = m.reg a0 ∧ m₃.satp = m.satp ∧
        m₃.mode = m.mode := by
    simp only [switchTo, switchToHead, List.cons_append, List.nil_append, run_cons, target, run_sws]
    refine ⟨_, rfl, ?_, ?_, rfl, rfl⟩
    · simp [exec, switchMem, sws.mem, kctxSlots, t0, t1, a0]
    · simp [exec, t0, t1, a0]
  obtain ⟨m', hrun, hmem, hreg, hpc, hscr, hsatp, hmode⟩ := run_switchToTail env
    { m₃ with x := loadAll (fun o => load32 m₃.mem (m₃.reg a0 + .ofNat 32 o)) m₃.x kctxSlots }
  have hslots : ∀ p ∈ kctxSlots, p.1 ≠ 0 ∧ p.1 ≠ t0 := by decide
  refine ⟨m', (hrun₃.trans (run_lws a0 kctxSlots m₃ (by decide))).trans hrun, hmem.trans hmem₃,
    fun p hp => ?_, ?_, hscr.trans (congrArg (· + 4096) ?_), hsatp.trans hsatp₃, hmode.trans hmode₃⟩
  · rw [hreg p.1 (hslots p hp).2, reg_of_ne_zero _ (hslots p hp).1, ← hmem₃, ← ha0]
    exact loadAll_of_mem (by decide) hp
  · rw [hpc, hreg 1 (by decide)]
  · exact (loadAll_of_ne (by decide)).trans ha0

theorem hartOf_switchTo (m : Machine) : hartOf (run env switchTo none m) =
      (hartOf m).switch (m.reg a0) (load32 (switchMem env m) (m.reg a0 + 4)) := by
  obtain ⟨m', hrun, -, hreg, -, hscr, hsatp, hmode⟩ := run_switchTo env m
  rw [hrun]
  ext : 1
  · exact hreg (2, 4) (by decide)
  · exact hscr
  · exact hsatp
  · exact hmode

/-! ### Tasks as coroutines

Between two switches the running task does what it likes, save that it leaves
the contexts of the others and `current` alone. -/

namespace Coroutine

variable {ι : Type} [DecidableEq ι]

/-- `current` and the contexts of the tasks are at different places. -/
structure Placed (env : Env) (page : ι → Word) : Prop where
  apart : ∀ i j, i ≠ j → ∀ o < 56, ∀ o' < 56, page i + .ofNat 32 o ≠ page j + .ofNat 32 o'
  current : ∀ i, ∀ o < 56, ∀ o' < 4, page i + .ofNat 32 o ≠ env.addr "current" + .ofNat 32 o'

/-- Task `cur` runs, and every other task has left `saved` in its context. -/
structure Waiting (env : Env) (page : ι → Word) (m : Machine) (cur : ι) (saved : ι → Reg → Word) :
    Prop where
  current : load32 m.mem (env.addr "current") = page cur
  saved : ∀ i, i ≠ cur → ∀ p ∈ kctxSlots, load32 m.mem (page i + .ofNat 32 p.2) = saved i p.1

/-- The machines that running tasks and `switch_to` lead to, with the registers
each task had when it was last switched away from. -/
inductive Reached (env : Env) (page : ι → Word) :
    Machine → ι → (ι → Reg → Word) → Prop
  | start {m cur saved} : Waiting env page m cur saved → Reached env page m cur saved
  | work {m m' cur saved} : Reached env page m cur saved →
      (∀ o < 4, m'.mem (env.addr "current" + .ofNat 32 o) =
        m.mem (env.addr "current" + .ofNat 32 o)) →
      (∀ i, i ≠ cur → ∀ o < 56, m'.mem (page i + .ofNat 32 o) = m.mem (page i + .ofNat 32 o)) →
      Reached env page m' cur saved
  | switch {m cur saved next} : Reached env page m cur saved → m.reg a0 = page next →
      Reached env page (run env switchTo none m) next (update saved cur m.reg)

theorem kctxSlots_lt : ∀ p ∈ kctxSlots, p.2 + 4 ≤ 56 := by decide

variable {env : Env} {page : ι → Word} {m : Machine} {cur : ι} {saved : ι → Reg → Word}

/-- A word of a context depends on the bytes of the context only. -/
theorem load32_context {μ μ' : Mem} {a : Word}
    (h : ∀ o < 56, μ' (a + .ofNat 32 o) = μ (a + .ofNat 32 o)) {p : Reg × ℕ} (hp : p ∈ kctxSlots) :
    load32 μ' (a + .ofNat 32 p.2) = load32 μ (a + .ofNat 32 p.2) := by
  refine loadN_congr fun k hk => ?_
  rw [offset_add]
  exact h _ (by have := kctxSlots_lt p hp; omega)

/-- After the saves of `switch_to` the context of every task holds the registers
it was last switched away from with. -/
theorem Waiting.context (h : Waiting env page m cur saved)
    (hplaced : Placed env page) (i : ι) {p : Reg × ℕ} (hp : p ∈ kctxSlots) :
    load32 (switchMem env m) (page i + .ofNat 32 p.2) = update saved cur m.reg i p.1 := by
  -- setting `current` touches no context
  have hset (o : ℕ) (ho : o < 56) : switchMem env m (page i + .ofNat 32 o) =
      storeAll 4 (page cur) m.reg m.mem kctxSlots (page i + .ofNat 32 o) := by
    rw [← h.current, storeAll]
    exact storeN_of_le (le_toNat_sub (hplaced.current i o ho))
  by_cases hi : i = cur
  · subst hi
    rw [update_self, load32_context hset hp]
    exact loadN_storeAll (by decide) (by decide) hp
  · rw [update_of_ne hi, ← h.saved i hi p hp]
    refine load32_context (fun o ho => (hset o ho).trans (storeAll_of_le fun q hq => ?_)) hp
    refine le_toNat_sub fun k hk => ?_
    rw [offset_add]
    exact hplaced.apart i cur hi o ho _ (by have := kctxSlots_lt q hq; omega)

theorem Reached.waiting (hplaced : Placed env page)
    (h : Reached env page m cur saved) : Waiting env page m cur saved := by
  induction h with
  | start h => exact h
  | work _ hcurrent hothers ih =>
    refine ⟨(loadN_congr hcurrent).trans ih.current, fun i hi p hp => ?_⟩
    exact (load32_context (hothers i hi) hp).trans (ih.saved i hi p hp)
  | @switch m _ _ next _ ha0 ih =>
    obtain ⟨m', hrun, hmem, -⟩ := run_switchTo env m
    rw [hrun]
    refine ⟨?_, fun i _ p hp => ?_⟩
    · rw [hmem, ← ha0]
      exact load32_store32_self ..
    · rw [hmem]
      exact ih.context hplaced i hp

/-- However often tasks were switched before: a task that is switched to goes on
with the `ra`, `sp` and `s0` to `s11` it was last switched away from with, it is
`current`, and `mscratch` is the top of its kernel stack. -/
theorem switch_to_resumes (hplaced : Placed env page) (h : Reached env page m cur saved) {next : ι}
    (hnext : m.reg a0 = page next) : ∃ m', run env switchTo none m = m' ∧
      (∀ p ∈ kctxSlots, m'.reg p.1 = update saved cur m.reg next p.1) ∧
      m'.pc = update saved cur m.reg next 1 ∧
      load32 m'.mem (env.addr "current") = page next ∧ m'.mscratch = page next + 4096 := by
  obtain ⟨m', hrun, -, hreg, hpc, hscr, -⟩ := run_switchTo env m
  have hresumed (p) (hp : p ∈ kctxSlots) : m'.reg p.1 = update saved cur m.reg next p.1 := by
    rw [hreg p hp, hnext]
    exact (h.waiting hplaced).context hplaced next hp
  refine ⟨m', hrun, hresumed, hpc.trans (hresumed (1, 0) (by decide)), ?_, hnext ▸ hscr⟩
  rw [← hrun]
  exact ((h.switch hnext).waiting hplaced).current

/-- Two tasks. -/
def twoPages : Bool → Word
  | true => 0x1000
  | false => 0x2000

/-- The second one runs, and the first one waits with zeros in its context. -/
def secondRuns : Machine := { interruptedLoop with
  x := fun r => if r = a0 then 0x1000 else 7
  mem := store32 (fun _ => 0) 0x3000 0x2000 }

theorem switch_to_resumes_first : ∃ m',
    run ⟨fun _ => 0x3000, fun _ m => m⟩ switchTo none secondRuns = m' ∧
      (∀ p ∈ kctxSlots, m'.reg p.1 = 0) ∧ m'.pc = 0 ∧ load32 m'.mem 0x3000 = 0x1000 ∧
      m'.mscratch = 0x2000 := by
  have hplaced : Placed ⟨fun _ => 0x3000, fun _ m => m⟩ twoPages := by
    refine ⟨?_, ?_⟩
    · rintro (_ | _) (_ | _) h o ho o' ho'
      all_goals simp only [twoPages, ne_eq, not_true] at * <;> bv_omega
    · rintro (_ | _) o ho o' ho' <;> simp only [twoPages] <;> bv_omega
  have hwaiting :
      Waiting ⟨fun _ => 0x3000, fun _ m => m⟩ twoPages secondRuns false fun _ _ => 0 := by
    refine ⟨load32_store32_self .., ?_⟩
    rintro (_ | _) h p hp
    · exact absurd rfl h
    · refine (load32_context (fun o ho => storeN_of_le ?_) hp).trans (loadN_zero 4 _)
      exact le_toNat_sub (hplaced.current true o ho)
  obtain ⟨m', hrun, hreg, hpc, hcur, hscr⟩ := switch_to_resumes hplaced (.start hwaiting)
    (show secondRuns.reg a0 = twoPages true from rfl)
  exact ⟨m', hrun, hreg, hpc, hcur, hscr⟩

end Coroutine

end LinuxRv.Kernel
