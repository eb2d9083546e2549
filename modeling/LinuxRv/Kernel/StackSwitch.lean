import LinuxRv.Kernel.SwitchTo

/-!
`mscratch`, `satp` and the current task over whole runs of the kernel.

A step is a trap into the kernel, a return from one, a switch to another task,
or a piece of C code: a fork, an exec, an exit, or anything that only moves `sp`.
`hartOf_trapEntry`, `hartOf_retFromTrap` and `hartOf_switchTo` tie the first
three to the assembly.

Of the kernel stacks only the trap frames are kept. C code may leave `sp`
anywhere, but it gives it back at the frame when a handler returns, and a trap
taken in the kernel does not overwrite a frame that is still needed.
-/

namespace LinuxRv.KernelStack

open ByteMemory Rv32 Kernel Function List Option

variable {c : Ctx} {f u : Frame} {fs : List Frame} {page : Word} {s : Sys}

/-- A trap frame: where it is, and the `sp` and the mode it returns to. -/
structure Frame where
  addr : Word
  sp : Word
  mode : Mode

/-- A task: `pgdir`, where it goes on when it is switched to, and the frames on
its kernel stack, innermost first. -/
structure Ctx where
  pgdir : Word
  /-- `kctx.sp` -/
  ksp : Word
  /-- `kctx.ra` is `ret_from_trap` -/
  atRet : Bool
  /-- `from_kernel` of a running `do_execve` that has set `pgdir`. -/
  fromKernel : Option Bool
  frames : List Frame

/-- Tasks are named by the address of their page, as `current` does. -/
structure Sys where
  hart : Hart
  current : Word
  task : Word → Option Ctx
  /-- The hart is at `ret_from_trap`. -/
  atRet : Bool
  /-- What the last `ret_from_trap` found on the stack. -/
  restored : Option Frame

/-- `current + PAGE_SIZE - TF_SIZE` -/
def userFrame (page : Word) : Word := page + 4096 + -.ofNat 32 tfSize

/-- The frame stored at an address of the stack. -/
def Ctx.stored (c : Ctx) (a : Word) : Option Frame := c.frames.find? fun f => f.addr = a

/-- The stack once the frame at `a` has been left. -/
def Ctx.pop (c : Ctx) (a : Word) : Ctx :=
  { c with frames := (c.frames.dropWhile fun f => f.addr ≠ a).tail }

def Ctx.push (c : Ctx) (f : Frame) : Ctx := { c with frames := f :: c.frames }

/-- A frame written over the one at its address. -/
def Ctx.overwrite (c : Ctx) (f : Frame) : Ctx :=
  { c with frames := c.frames.map fun g => if g.addr = f.addr then f else g }

def Sys.setTask (s : Sys) (page : Word) (c : Option Ctx) : Sys :=
  { s with task := update s.task page c }

def Sys.setSp (s : Sys) (v : Word) : Sys := { s with hart := { s.hart with sp := v } }

/-- Control goes to `ret_from_trap` with `sp` at a frame. -/
def Sys.toRet (s : Sys) (v : Word) : Sys := { s.setSp v with atRet := true }

/-- The kernel's C code is running. -/
def Sys.InC (s : Sys) : Prop := s.hart.mode = .machine ∧ s.atRet = false

/-- The task made by `copy_process` at `page`, with the frame it has copied. -/
def forked (page pgdir : Word) (f : Frame) : Ctx :=
  ⟨pgdir, userFrame page, true, none, [{ f with addr := userFrame page }]⟩

/-- The task made by `kernel_thread` at `page`. -/
def thread (page : Word) : Ctx := ⟨0, page + 4096, false, none, []⟩

inductive Step : Sys → Sys → Prop
  /-- A program, or C code that only moves `sp`. -/
  | code {s : Sys} (v : Word) (h : s.atRet = false) : Step s (s.setSp v)
  /-- `trap_entry` -/
  | trap {s : Sys} {c : Ctx} (hc : s.task s.current = some c) (h : s.atRet = false)
      (hroom : s.hart.mode = .machine → ∀ f ∈ c.frames, f.addr ≠ s.hart.trap.sp) :
      Step s { s.setTask s.current (some (c.push ⟨s.hart.trap.sp, s.hart.sp, s.hart.mode⟩)) with
        hart := s.hart.trap }
  /-- `trap_handler` returns. -/
  | back {s : Sys} {c : Ctx} {f : Frame} {fs : List Frame} (hc : s.task s.current = some c)
      (h : s.InC) (hf : c.frames = f :: fs) : Step s (s.toRet f.addr)
  /-- `ret_from_trap`, which reads anything when no frame is stored at `sp`. -/
  | ret {s : Sys} {c : Ctx} (hc : s.task s.current = some c) (h : s.atRet = true) (f : Frame)
      (hf : ∀ g, c.stored s.hart.sp = some g → f = g) :
      Step s { s.setTask s.current (some (c.pop s.hart.sp)) with
        hart := s.hart.ret c.pgdir f.sp f.mode
        atRet := false
        restored := c.stored s.hart.sp }
  /-- `switch_to` -/
  | switch {s : Sys} {c d : Ctx} (hc : s.task s.current = some c) (h : s.InC) (page : Word)
      (hd : (s.setTask s.current (some { c with ksp := s.hart.sp, atRet := false })).task page =
        some d) :
      Step s { s.setTask s.current (some { c with ksp := s.hart.sp, atRet := false }) with
        hart := s.hart.switch page d.ksp
        current := page
        atRet := d.atRet }
  /-- `copy_process`, which panics in a kernel task. -/
  | fork {s : Sys} {c : Ctx} (hc : s.task s.current = some c) (h : s.InC)
      (hexec : c.fromKernel = none) (hpgdir : c.pgdir ≠ 0) {page : Word}
      (hpage : s.task page = none) (pgdir : Word) (f : Frame)
      (hf : ∀ g, c.stored (userFrame s.current) = some g → f = g) :
      Step s (s.setTask page (some (forked page pgdir f)))
  | kernelThread {s : Sys} (h : s.InC) {page : Word} (hpage : s.task page = none) :
      Step s (s.setTask page (some (thread page)))
  /-- `do_execve` up to the new page directory. -/
  | execve {s : Sys} {c : Ctx} (hc : s.task s.current = some c) (h : s.InC)
      (hexec : c.fromKernel = none) (pgdir : Word) :
      Step s (s.setTask s.current
        (some { c with pgdir := pgdir, fromKernel := some (decide (c.pgdir = 0)) }))
  /-- The frame for the new program, in the place of the one `execve` came with. -/
  | start {s : Sys} {c : Ctx} (hc : s.task s.current = some c) (h : s.InC)
      (hexec : c.fromKernel = some false) (p : Word) :
      Step s (s.setTask s.current
        (some { c.overwrite ⟨userFrame s.current, p, .user⟩ with fromKernel := none }))
  /-- A kernel task leaves its stack for the frame and goes to `ret_from_trap`. -/
  | startKernel {s : Sys} {c : Ctx} (hc : s.task s.current = some c) (h : s.InC)
      (hexec : c.fromKernel = some true) (p : Word) :
      Step s ((s.setTask s.current (some ⟨c.pgdir, userFrame s.current, true, none,
        [⟨userFrame s.current, p, .user⟩]⟩)).toRet (userFrame s.current))
  /-- `do_signal` and `sys_sigreturn`, which change the frame of a program. -/
  | signal {s : Sys} {c : Ctx} {f : Frame} {fs : List Frame} (hc : s.task s.current = some c)
      (h : s.InC) (hf : c.frames = f :: fs) (hmode : f.mode = .user) (v : Word) :
      Step s (s.setTask s.current (some { c with frames := { f with sp := v } :: fs }))
  /-- `do_exit` frees the page directory. -/
  | exit {s : Sys} {c : Ctx} (hc : s.task s.current = some c) (h : s.InC) :
      Step s (s.setTask s.current (some { c with pgdir := 0 }))
  /-- `release` of another task. -/
  | release {s : Sys} (h : s.InC) {page : Word} (hpage : page ≠ s.current) :
      Step s (s.setTask page none)

/-- Task 0, before anything else runs. -/
def booted (page sp mscratch satp : Word) : Sys where
  hart := ⟨sp, mscratch, satp, .machine⟩
  current := page
  task := update (fun _ => none) page (some ⟨0, 0, false, none, []⟩)
  atRet := false
  restored := none

inductive Reach : Sys → Prop
  | boot (page sp mscratch satp : Word) : Reach (booted page sp mscratch satp)
  | step {s s' : Sys} (h : Reach s) (hs : Step s s') : Reach s'

/-! ### The invariant -/

def OnlyKernel (fs : List Frame) : Prop := ∀ f ∈ fs, f.mode = .machine

/-- Frames of the kernel above the frame of a program, which is where the stack
begins. -/
def UserBelow (page : Word) (fs : List Frame) : Prop :=
  ∃ ks u, fs = ks ++ [u] ∧ u.mode = .user ∧ u.addr = userFrame page ∧
    ∀ f ∈ ks, f.mode = .machine ∧ f.addr ≠ userFrame page

/-- What holds of a task in the kernel. -/
def Ctx.Good (page : Word) (c : Ctx) : Prop :=
  UserBelow page c.frames ∨
    OnlyKernel c.frames ∧ (c.pgdir = 0 ∧ c.fromKernel = none ∨ c.fromKernel = some true)

/-- `sp` is at the innermost frame. -/
def Ctx.AtTop (c : Ctx) (sp : Word) : Prop := ∃ f fs, c.frames = f :: fs ∧ f.addr = sp

/-- `mscratch` is the top of the current task's page, `satp` has its page
directory, and the frame restored was at the top of the page. -/
structure InStep (s : Sys) (c : Ctx) : Prop where
  mscratch : s.hart.mscratch = s.current + 4096
  satp : s.hart.satp = satpOf c.pgdir
  restored : ∃ f, s.restored = some f ∧ f.addr = userFrame s.current

/-- The current task, which has no frame while its program runs. -/
structure Running (s : Sys) (c : Ctx) : Prop where
  user : s.hart.mode = .user → s.atRet = false ∧ c.frames = [] ∧ InStep s c
  machine : s.hart.mode = .machine → c.Good s.current ∧ (s.atRet = true → c.AtTop s.hart.sp)

structure Inv (s : Sys) : Prop where
  running : ∃ c, s.task s.current = some c ∧ Running s c
  others : ∀ page d, page ≠ s.current → s.task page = some d →
    d.Good page ∧ (d.atRet = true → d.AtTop d.ksp)

/-! ### Frames -/

theorem UserBelow.push (h : UserBelow page fs)
    (hmode : f.mode = .machine) (hf : ∀ g ∈ fs, g.addr ≠ f.addr) : UserBelow page (f :: fs) := by
  obtain ⟨ks, u, rfl, humode, hu, hks⟩ := h
  refine ⟨f :: ks, u, rfl, humode, hu, ?_⟩
  intro g hg
  rcases mem_cons.mp hg with rfl | hg
  · refine ⟨hmode, fun heq => hf u (by simp) ?_⟩
    rw [hu, heq]
  · exact hks g hg

/-- The innermost frame is that of the program and the only one, or it is one of
the kernel and the others are as before. -/
theorem UserBelow.head (h : UserBelow page (f :: fs)) :
    f.mode = .user ∧ f.addr = userFrame page ∧ fs = [] ∨ f.mode = .machine ∧ UserBelow page fs := by
  obtain ⟨ks, u, heq, humode, hu, hks⟩ := h
  cases ks with
  | nil =>
    obtain ⟨rfl, rfl⟩ := cons.inj heq
    exact .inl ⟨humode, hu, rfl⟩
  | cons k ks =>
    obtain ⟨rfl, rfl⟩ := cons.inj heq
    exact .inr ⟨(hks _ (.head _)).1, ks, u, rfl, humode, hu, fun g hg => hks g (.tail _ hg)⟩

/-- `current + PAGE_SIZE - TF_SIZE` is the frame of the program. -/
theorem UserBelow.stored (h : UserBelow page c.frames) :
    ∃ u, c.stored (userFrame page) = some u ∧ u.mode = .user := by
  obtain ⟨ks, u, heq, humode, hu, hks⟩ := h
  refine ⟨u, ?_, humode⟩
  have hnone : ks.find? (fun f => f.addr = userFrame page) = none := by
    apply find?_eq_none.mpr
    intro f hf
    simpa using (hks f hf).2
  rw [Ctx.stored, heq, find?_append, hnone, none_or]
  simp [hu]

theorem UserBelow.overwrite (h : UserBelow page c.frames) (p : Word) :
    UserBelow page (c.overwrite ⟨userFrame page, p, .user⟩).frames := by
  obtain ⟨ks, u, heq, humode, hu, hks⟩ := h
  refine ⟨ks, ⟨userFrame page, p, .user⟩, ?_, rfl, rfl, hks⟩
  have hmap : ks.map (fun g => if g.addr = userFrame page then ⟨userFrame page, p, .user⟩ else g) =
      ks := (map_congr_left fun g hg => if_neg (hks g hg).2).trans (map_id _)
  dsimp only [Ctx.overwrite]
  rw [heq, map_append, hmap, map_singleton, if_pos hu]

theorem Ctx.Good.of_single (h : c.frames = [u])
    (hmode : u.mode = .user) (haddr : u.addr = userFrame page) : c.Good page :=
  .inl ⟨[], u, h, hmode, haddr, by simp⟩

theorem Ctx.AtTop.of_single {sp : Word} (h : c.frames = [u]) (haddr : u.addr = sp) : c.AtTop sp :=
  ⟨u, [], h, haddr⟩

theorem stored_of_top (hf : c.frames = f :: fs) : c.stored f.addr = some f := by
  simp [Ctx.stored, hf]

theorem pop_of_top (hf : c.frames = f :: fs) : (c.pop f.addr).frames = fs := by
  simp [Ctx.pop, hf]

/-! ### Steps -/

theorem Running.of_machine (hmode : s.hart.mode = .machine)
    (hgood : c.Good s.current) (htop : s.atRet = true → c.AtTop s.hart.sp) : Running s c where
  user := fun h => absurd (hmode.symm.trans h) (by decide)
  machine := fun _ => ⟨hgood, htop⟩

/-- A step that changes the current task only. -/
theorem Inv.of_running {s' : Sys} (h : Inv s) (hcur : s'.current = s.current)
    (htask : s'.task = update s.task s.current (some c)) (hrun : Running s' c) : Inv s' where
  running := ⟨c, by rw [htask, hcur, update_self], hrun⟩
  others := by
    intro page d hpage hd
    rw [hcur] at hpage
    rw [htask, update_of_ne hpage] at hd
    exact h.others page d hpage hd

/-- A step that changes another task only. -/
theorem Inv.of_other (h : Inv s) (hpage : page ≠ s.current) {o : Option Ctx}
    (ho : ∀ d, o = some d → d.Good page ∧ (d.atRet = true → d.AtTop d.ksp)) :
    Inv (s.setTask page o) where
  running := by
    obtain ⟨c, hc, hrun⟩ := h.running
    refine ⟨c, (update_of_ne hpage.symm _ _).trans hc, fun hmode => ?_, hrun.machine⟩
    obtain ⟨hret, hnil, hin⟩ := hrun.user hmode
    exact ⟨hret, hnil, hin.mscratch, hin.satp, hin.restored⟩
  others := by
    intro page' d hpage' hd
    dsimp only [Sys.setTask] at hd
    rcases eq_or_ne page' page with rfl | hne
    · rw [update_self] at hd
      exact ho d hd
    · rw [update_of_ne hne] at hd
      exact h.others page' d hpage' hd

theorem ne_current (h : Inv s) (hpage : s.task page = none) : page ≠ s.current := by
  rintro rfl
  obtain ⟨c, hc, -⟩ := h.running
  exact absurd (hc.symm.trans hpage) (by simp)

theorem Inv.good (h : Inv s) (hc : s.task s.current = some c) (hmode : s.hart.mode = .machine) :
    c.Good s.current ∧ (s.atRet = true → c.AtTop s.hart.sp) := by
  obtain ⟨c', hc', hrun⟩ := h.running
  obtain rfl := some.inj (hc'.symm.trans hc)
  exact hrun.machine hmode

theorem Inv.trap (h : Inv s) (hc : s.task s.current = some c)
    (hroom : s.hart.mode = .machine → ∀ f ∈ c.frames, f.addr ≠ s.hart.trap.sp)
    (hret : s.atRet = false) :
    Inv { s.setTask s.current (some (c.push ⟨s.hart.trap.sp, s.hart.sp, s.hart.mode⟩)) with
      hart := s.hart.trap } := by
  obtain ⟨c', hc', hrun⟩ := h.running
  obtain rfl := some.inj (hc'.symm.trans hc)
  have hmode' : s.hart.trap.mode = .machine := by
    rw [Hart.trap]
    split <;> rfl
  refine h.of_running rfl rfl (.of_machine hmode' ?_ fun hret' => ?_)
  · cases hmode : s.hart.mode with
    | user =>
      obtain ⟨-, hnil, hstep⟩ := hrun.user hmode
      have hsp : s.hart.trap.sp = userFrame s.current := by
        rw [Hart.trap, hmode, userFrame, ← hstep.mscratch]
      refine .inl ⟨[], ⟨s.hart.trap.sp, s.hart.sp, .user⟩, ?_, rfl, hsp, by simp⟩
      rw [Ctx.push, hnil, nil_append]
    | machine =>
      rcases (hrun.machine hmode).1 with hbelow | ⟨honly, hp⟩
      · exact .inl (hbelow.push rfl (hroom hmode))
      · refine .inr ⟨?_, hp⟩
        rintro f (_ | ⟨_, hf⟩)
        · rfl
        · exact honly f hf
  · exact absurd (hret.symm.trans hret') (by decide)

/-- Control goes to the frame of a program, which is all there is on the stack. -/
theorem Inv.toRet (h : Inv s) (hmode : s.hart.mode = .machine)
    (hframes : c.frames = [u]) (hu : u.mode = .user) (haddr : u.addr = userFrame s.current) :
    Inv ((s.setTask s.current (some c)).toRet u.addr) :=
  h.of_running rfl rfl (.of_machine hmode (.of_single hframes hu haddr)
    fun _ => .of_single hframes rfl)

theorem Inv.ret (h : Inv s) (hc : s.task s.current = some c)
    (hret : s.atRet = true) (hf : ∀ g, c.stored s.hart.sp = some g → f = g) :
    Inv { s.setTask s.current (some (c.pop s.hart.sp)) with
      hart := s.hart.ret c.pgdir f.sp f.mode
      atRet := false
      restored := c.stored s.hart.sp } := by
  have hmode : s.hart.mode = .machine := by
    obtain ⟨_, -, hrun⟩ := h.running
    cases hmode : s.hart.mode with
    | user => exact absurd ((hrun.user hmode).1.symm.trans hret) (by decide)
    | machine => rfl
  obtain ⟨hgood, htop⟩ := h.good hc hmode
  obtain ⟨g, fs, hfs, hg⟩ := htop hret
  have hstored : c.stored s.hart.sp = some g := hg ▸ stored_of_top hfs
  have hpop : (c.pop s.hart.sp).frames = fs := hg ▸ pop_of_top hfs
  obtain rfl := hf g hstored
  refine h.of_running rfl rfl ?_
  -- the frame is that of the program, or the kernel goes on below it
  have hcases : f.mode = .user ∧ f.addr = userFrame s.current ∧ fs = [] ∨
      f.mode = .machine ∧ (c.pop s.hart.sp).Good s.current := by
    rcases hgood with hbelow | ⟨honly, hp⟩
    · rw [hfs] at hbelow
      refine hbelow.head.imp_right (And.imp_right fun hfs => .inl ?_)
      rw [hpop]
      exact hfs
    · refine .inr ⟨honly f (by simp [hfs]), .inr ⟨?_, hp⟩⟩
      rw [hpop]
      exact fun k hk => honly k (by simp [hfs, hk])
  rcases hcases with ⟨huser, haddr, hnil⟩ | ⟨hmachine, hgood'⟩
  · refine ⟨fun _ => ⟨rfl, hpop.trans hnil, ?_, rfl, f, hstored, haddr⟩, fun hm => ?_⟩
    · change s.hart.sp + .ofNat 32 tfSize = s.current + 4096
      rw [← hg, haddr, userFrame]
      grind
    · exact absurd (huser.symm.trans hm) (by decide)
  · exact .of_machine hmachine hgood' (nomatch ·)

theorem Inv.switch (h : Inv s) {d : Ctx} (hc : s.task s.current = some c) (hinC : s.InC)
    (hd : (s.setTask s.current (some { c with ksp := s.hart.sp, atRet := false })).task page =
      some d) : Inv { s.setTask s.current (some { c with ksp := s.hart.sp, atRet := false }) with
      hart := s.hart.switch page d.ksp
      current := page
      atRet := d.atRet } := by
  obtain ⟨hgood, -⟩ := h.good hc hinC.1
  -- every task is as `others` has it, the one switched from included
  have hall : ∀ page' d',
      (s.setTask s.current (some { c with ksp := s.hart.sp, atRet := false })).task page' =
        some d' → d'.Good page' ∧ (d'.atRet = true → d'.AtTop d'.ksp) := by
    intro page' d' hd'
    dsimp only [Sys.setTask] at hd'
    rcases eq_or_ne page' s.current with rfl | hne
    · rw [update_self] at hd'
      obtain rfl := some.inj hd'
      exact ⟨hgood, (nomatch ·)⟩
    · rw [update_of_ne hne] at hd'
      exact h.others page' d' hne hd'
  obtain ⟨hd₁, hd₂⟩ := hall page d hd
  exact ⟨⟨d, hd, .of_machine hinC.1 hd₁ hd₂⟩, fun page' d' _ => hall page' d'⟩

theorem Inv.step {s' : Sys} (h : Inv s) (hs : Step s s') : Inv s' := by
  cases hs with
  | code v hret =>
    obtain ⟨c, hc, hrun⟩ := h.running
    refine ⟨⟨c, hc, fun hmode => ?_, fun hmode => ⟨(hrun.machine hmode).1, fun hret' => ?_⟩⟩,
      h.others⟩
    · obtain ⟨-, hnil, hin⟩ := hrun.user hmode
      exact ⟨hret, hnil, hin.mscratch, hin.satp, hin.restored⟩
    · exact absurd (hret.symm.trans hret') (by decide)
  | trap hc hret hroom => exact h.trap hc hroom hret
  | @back c f fs hc hinC hf =>
    exact ⟨⟨c, hc, .of_machine hinC.1 (h.good hc hinC.1).1 fun _ => ⟨f, fs, hf, rfl⟩⟩, h.others⟩
  | ret hc hret f hf => exact h.ret hc hret hf
  | switch hc hinC page hd => exact h.switch hc hinC hd
  | @fork c hc hinC hexec hpgdir page hpage pgdir f hf =>
    refine h.of_other (ne_current h hpage) fun d hd => ?_
    obtain rfl := some.inj hd
    have hbelow : UserBelow s.current c.frames := by
      rcases (h.good hc hinC.1).1 with hbelow | ⟨-, ⟨hzero, -⟩ | hkernel⟩
      · exact hbelow
      · exact absurd hzero hpgdir
      · exact absurd (hexec.symm.trans hkernel) (by simp)
    obtain ⟨u, hu, humode⟩ := hbelow.stored
    obtain rfl := hf u hu
    exact ⟨.of_single rfl humode rfl, fun _ => .of_single rfl rfl⟩
  | kernelThread hinC hpage =>
    refine h.of_other (ne_current h hpage) fun d hd => ?_
    obtain rfl := some.inj hd
    exact ⟨.inr ⟨by simp [OnlyKernel, thread], .inl ⟨rfl, rfl⟩⟩, (nomatch ·)⟩
  | @execve c hc hinC hexec pgdir =>
    refine h.of_running rfl rfl (.of_machine hinC.1 ?_ fun hret => ?_)
    · rcases (h.good hc hinC.1).1 with hbelow | ⟨honly, ⟨hzero, -⟩ | hkernel⟩
      · exact .inl hbelow
      · exact .inr ⟨honly, .inr (by simp [hzero])⟩
      · exact absurd (hexec.symm.trans hkernel) (by simp)
    · exact absurd (hinC.2.symm.trans hret) (by decide)
  | @start c hc hinC hexec p =>
    refine h.of_running rfl rfl (.of_machine hinC.1 ?_ fun hret => ?_)
    · rcases (h.good hc hinC.1).1 with hbelow | ⟨-, ⟨-, hnone⟩ | hkernel⟩
      · exact .inl (hbelow.overwrite p)
      · exact absurd (hexec.symm.trans hnone) (by simp)
      · exact absurd (hexec.symm.trans hkernel) (by simp)
    · exact absurd (hinC.2.symm.trans hret) (by decide)
  | @startKernel c hc hinC hexec p =>
    exact h.toRet hinC.1 (u := ⟨userFrame s.current, p, .user⟩) rfl rfl rfl
  | @signal c f fs hc hinC hf hmode v =>
    refine h.of_running rfl rfl (.of_machine hinC.1 ?_ fun hret => ?_)
    · rcases (h.good hc hinC.1).1 with hbelow | ⟨honly, -⟩
      · rw [hf] at hbelow
        rcases hbelow.head with ⟨-, haddr, rfl⟩ | ⟨hmachine, -⟩
        · exact .of_single rfl hmode haddr
        · exact absurd (hmachine.symm.trans hmode) (by decide)
      · exact absurd ((honly f (by simp [hf])).symm.trans hmode) (by decide)
    · exact absurd (hinC.2.symm.trans hret) (by decide)
  | @exit c hc hinC =>
    refine h.of_running rfl rfl (.of_machine hinC.1 ?_ fun hret => ?_)
    · exact (h.good hc hinC.1).1.imp_right (And.imp_right (Or.imp_left fun hp => ⟨rfl, hp.2⟩))
    · exact absurd (hinC.2.symm.trans hret) (by decide)
  | release hinC hpage => exact h.of_other hpage fun d hd => nomatch hd

theorem Inv.booted (page sp mscratch satp : Word) : Inv (booted page sp mscratch satp) where
  running := by
    refine ⟨⟨0, 0, false, none, []⟩, ?_, .of_machine rfl ?_ (nomatch ·)⟩
    · simp [KernelStack.booted]
    · exact .inr ⟨by simp [OnlyKernel], .inl ⟨rfl, rfl⟩⟩
  others := by
    intro page' d hpage hd
    dsimp only [KernelStack.booted] at hpage hd
    rw [update_of_ne hpage] at hd
    exact nomatch hd

theorem Reach.inv (h : Reach s) : Inv s := by
  induction h with
  | boot page sp mscratch satp => exact .booted page sp mscratch satp
  | step _ hs ih => exact ih.step hs

/-- The root page number in `satp`, bits 21:0. -/
def rootPpn (satp : Word) : Word := satp &&& 0x3fffff

theorem rootPpn_satpOf (pgdir : Word) : rootPpn (satpOf pgdir) = pgdir >>> 12 := by
  ext i hi
  simp only [rootPpn, satpOf, BitVec.getElem_and, BitVec.getElem_or]
  interval_cases i <;> simp

/-- Whenever a program runs, `mscratch` is the end of the current task's page,
`satp` has its page directory, the frame restored last was the one at
`current + PAGE_SIZE - TF_SIZE`, and the next trap puts its frame there. -/
theorem stack_follows_current {s : Sys} (h : Reach s) (hmode : s.hart.mode = .user) :
    ∃ c f, s.task s.current = some c ∧ s.hart.mscratch = s.current + 4096 ∧
      rootPpn s.hart.satp = c.pgdir >>> 12 ∧ s.restored = some f ∧
      f.addr = userFrame s.current ∧ s.hart.trap.sp = userFrame s.current := by
  obtain ⟨c, hc, hrun⟩ := h.inv.running
  obtain ⟨-, -, hin⟩ := hrun.user hmode
  obtain ⟨f, hf, haddr⟩ := hin.restored
  refine ⟨c, f, hc, hin.mscratch, ?_, hf, haddr, ?_⟩
  · rw [hin.satp, rootPpn_satpOf]
  · rw [Hart.trap, hmode, userFrame, ← hin.mscratch]

theorem task_setTask_self (s : Sys) (page : Word) (o : Option Ctx) :
    (s.setTask page o).task page = o := update_self _ _ _

theorem task_setTask_of_ne (s : Sys) {page' : Word} (h : page' ≠ page) (o : Option Ctx) :
    (s.setTask page o).task page' = s.task page' := update_of_ne h _ _

theorem Reach.switch (h : Reach s) (hinC : s.InC) {d : Ctx}
    (hne : page ≠ s.current) (hd : s.task page = some d) (hret : d.atRet = false) :
    ∃ s', Reach s' ∧ s'.InC ∧ s'.current = page ∧ s'.task s'.current = some d := by
  obtain ⟨c, hc, -⟩ := h.inv.running
  have hd' := (task_setTask_of_ne s hne (some { c with ksp := s.hart.sp, atRet := false })).trans hd
  exact ⟨_, h.step (.switch hc hinC page hd'), ⟨hinC.1, hret⟩, rfl, hd'⟩

theorem Reach.ret {v : Word} (h : Reach ((s.setTask s.current (some c)).toRet v))
    (hf : c.frames = f :: fs) (hmode : f.mode = .user) (haddr : f.addr = v) :
    ∃ s', Reach s' ∧ s'.hart.mode = .user ∧ s'.current = s.current := by
  have hc : ((s.setTask s.current (some c)).toRet v).task s.current = some c :=
    task_setTask_self s _ _
  refine ⟨_, h.step (.ret hc rfl f fun g hg => ?_), hmode, rfl⟩
  exact some.inj ((stored_of_top hf).symm.trans (haddr ▸ hg))

/-- A kernel task makes itself a program. -/
theorem Reach.program (h : Reach s) (hc : s.task s.current = some c)
    (hinC : s.InC) (hexec : c.fromKernel = none) (hzero : c.pgdir = 0) (pgdir p : Word) :
    ∃ s', Reach s' ∧ s'.hart.mode = .user ∧ s'.current = s.current := by
  obtain ⟨s₁, h₁, hcur₁, hinC₁, c₁, hc₁, hexec₁⟩ : ∃ s₁, Reach s₁ ∧ s₁.current = s.current ∧
      s₁.InC ∧ ∃ c₁, s₁.task s₁.current = some c₁ ∧ c₁.fromKernel = some true :=
    ⟨_, h.step (.execve hc hinC hexec pgdir), rfl, hinC, _, task_setTask_self _ _ _,
      by simp [hzero]⟩
  rw [← hcur₁]
  exact (h₁.step (.startKernel hc₁ hinC₁ hexec₁ p)).ret rfl rfl rfl

/-- With task 0 at 0x80000000, a thread it starts becomes a program. -/
theorem stack_follows_program : ∃ s, Reach s ∧ s.hart.mode = .user ∧ s.current = 0x80001000 ∧
    s.hart.mscratch = 0x80002000 ∧ s.hart.trap.sp = 0x80001e70 := by
  have hfree : (booted 0x80000000 0x80000ff0 0 0).task 0x80001000 = none := rfl
  have h₀ := (Reach.boot 0x80000000 0x80000ff0 0 0).step (.kernelThread ⟨rfl, rfl⟩ hfree)
  obtain ⟨s₁, h₁, hinC, hcur₁, hc⟩ :=
    h₀.switch ⟨rfl, rfl⟩ (by decide) (task_setTask_self _ 0x80001000 _) rfl
  obtain ⟨s, h, hmode, hcur⟩ := h₁.program hc hinC rfl rfl 0x80002000 0x1ff00
  obtain ⟨-, -, -, hscr, -, -, -, htrap⟩ := stack_follows_current h hmode
  rw [hcur.trans hcur₁] at hscr htrap
  exact ⟨s, h, hmode, hcur.trans hcur₁, hscr, htrap⟩

end LinuxRv.KernelStack
