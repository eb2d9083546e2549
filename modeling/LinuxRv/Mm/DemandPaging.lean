import LinuxRv.Mm.UserAccess

/-!
The page-fault path of `trap_handler` (`kernel/traps.c`).

A first access to an unmapped user page traps with the cause of its kind: 12
for a fetch, 13 for a load, 15 for a store. `trap_handler` sends 12 and 15 to
`page_fault_handler`; 13 falls to `exception_trap`, which ends the task.
-/

namespace LinuxRv.Mm

open ByteMemory Prog World

/-! ### The source -/

/-- `exception_trap`; in each of its cases `die` prints and calls `do_exit(11)`. -/
def exceptionTrap (fromUser : Bool) : M PUnit := do
  if !fromUser then
    throw (.panic "kernel trap")
  throw (.exit 11)

/-- `trap_handler`, where `timer` and `ecall` stand for the timer interrupt and
the system call of the frame. -/
def trapHandler (timer ecall : M PUnit) (fromUser : Bool) (pgdir cause mtval : Word) : M PUnit :=
  if cause &&& 0x80000000 ≠ 0 ∧ cause &&& 0xff = 7 then timer
  else if cause = 8 ∨ cause = 11 then ecall
  else if cause = 12 ∨ cause = 15 then pageFaultHandler fromUser pgdir mtval
  else exceptionTrap fromUser

/-! ### First accesses -/

inductive Access.Kind
  | fetch
  | load
  | store
  deriving DecidableEq

/-- The `mcause` of a page fault. -/
def Access.Kind.mcause : Access.Kind → Word
  | .fetch => 12
  | .load => 13
  | .store => 15

section

variable {main : MainMemory} {w : World} {i : Fin nrTasks} {d a : Word} {timer ecall : M PUnit}
  {Q : PUnit → State → Prop} {E : Halt → State → Prop}

/-- The page of `a` is mapped and reads as zeros, and nothing else has changed. -/
def DemandPaged (main : MainMemory) (w : World) (i : Fin nrTasks) (a : Word) (h : a < userLimit)
    (s' : State) : Prop :=
  ∃ w', w'.mm = s' ∧ Mapped main w i (pageNr a h) (fun _ => 0) w' ∧
    ∀ d, w.pgdir i = some d → ∃ pa, walk s'.mem d .load a = .ok pa ∧ s'.mem pa = 0

theorem trapHandler_load : trapHandler timer ecall true d (Access.Kind.load).mcause a =
    throw (.exit 11) := rfl

theorem trapHandler_of_ne_load {kind : Access.Kind} (hkind : kind ≠ .load) :
    trapHandler timer ecall true d kind.mcause a = pageFaultHandler true d a := by
  cases kind with
  | fetch => rfl
  | load => exact absurd rfl hkind
  | store => rfl

/-- What is read at a page that was just mapped. -/
theorem Mapped.load_eq {w' : World} {h : a < userLimit} {bytes : PageBytes}
    (hw' : Mapped main w i (pageNr a h) bytes w') (hd : w.pgdir i = some d) :
    ∃ pa, walk w'.mm.mem d .load a = .ok pa ∧
      w'.mm.mem pa = bytes ⟨pageOffset a, pageOffset_lt a⟩ := by
  obtain ⟨e, he, -⟩ := hw'.entry
  have hleaf : w'.leafAt i a = some e := by
    rw [leafAt, dif_pos h]
    exact he
  have hphys : w'.physAddr i a = some (ptePhys e + .ofNat 32 (pageOffset a)) := by
    rw [physAddr, hleaf, Option.map_some]
  refine ⟨_, (hw'.inv.walk_load_eq hw'.upper (hw'.pgdir ▸ hd) a).trans (by rw [hphys]), ?_⟩
  have hself := hw'.self
  rw [contents_of_entry he, Option.some.injEq] at hself
  exact congrFun hself ⟨pageOffset a, pageOffset_lt a⟩

/-- For every task, address space, unmapped user address and access kind, the
trap of the first access maps a page of zeros and leaves everything else as it
was if and only if the access is not a load and there are frames for the page
and for the table it may take. -/
theorem demand_paging_iff (hI : w.Inv main) (hupper : w.Upper) (hd : w.pgdir i = some d)
    (h : a < userLimit) (hempty : w.view.entry (userLeaf i a h) = none) (kind : Access.Kind) :
    wp (trapHandler timer ecall true d kind.mcause a) (fun _ s' => DemandPaged main w i a h s')
      (fun _ _ => False) w.mm ↔ kind ≠ .load ∧ w.FramesFor i a h := by
  have hbytes : w.bytesAt i (pageNr a h) = fun _ => 0 := by
    rw [bytesAt, contents_of_none hempty, Option.getD_none]
  -- the handler returns exactly when the frames are there
  have hfault : wp (pageFaultHandler true d a)
      (fun _ s' => DemandPaged main w i a h s' ∧ w.FramesFor i a h)
      (fun _ _ => ¬ w.FramesFor i a h) w.mm := by
    refine hI.wp_pageFaultHandler_of_empty hupper hd h hempty (fun w' hw' hfit => ⟨?_, hfit⟩)
      fun _ _ _ hnot => hnot
    rw [hbytes] at hw'
    refine ⟨w', rfl, hw', fun d' hd' => ?_⟩
    obtain ⟨pa, hwalk, hbyte⟩ := hw'.load_eq hd'
    exact ⟨pa, hwalk, hbyte⟩
  constructor
  · intro hrun
    have hkind : kind ≠ .load := by
      rintro rfl
      rwa [trapHandler_load, wp_throw] at hrun
    rw [trapHandler_of_ne_load hkind] at hrun
    cases hres : pageFaultHandler true d a w.mm with
    | ok u s' => exact ⟨hkind, ((wp_of_ok hres).mp hfault).2⟩
    | error e s' => exact ((wp_of_error hres).mp hrun).elim
  · rintro ⟨hkind, hfit⟩
    rw [trapHandler_of_ne_load hkind]
    exact hfault.mono (fun _ _ h => h.1) fun _ _ hnot => hnot hfit

end

theorem OneTable.framesFor {w : World} (hw : OneTable w) : w.FramesFor 0 0 (by decide) :=
  ⟨1026, by decide, hw.free _ le_rfl (by decide), fun hnone => by
    cases hw.table.symm.trans hnone⟩

/-- A first load ends the task, with frames to spare. -/
theorem load_fault_exits : ∃ w : World, w.Inv mainFrom4M ∧ w.Upper ∧
    w.pgdir 0 = some (frame 1024) ∧ w.leafAt 0 0 = none ∧ w.FramesFor 0 0 (by decide) ∧
    ∀ timer ecall, trapHandler timer ecall true (frame 1024) (Access.Kind.load).mcause 0 w.mm =
      .error (.exit 11) w.mm := by
  obtain ⟨w, hw⟩ := exists_oneTable
  refine ⟨w, hw.inv, hw.upper, hw.dir, ?_, hw.framesFor, fun timer ecall => ?_⟩
  · rw [leafAt, dif_pos (by decide)]
    exact hw.leaf _ _ _
  · rw [trapHandler_load]
    rfl

/-- A first store gives the page. -/
theorem store_fault_maps : ∃ w : World, w.pgdir 0 = some (frame 1024) ∧ ∀ timer ecall,
    wp (trapHandler timer ecall true (frame 1024) (Access.Kind.store).mcause 0)
      (fun _ s' => DemandPaged mainFrom4M w 0 0 (by decide) s') (fun _ _ => False) w.mm := by
  obtain ⟨w, hw⟩ := exists_oneTable
  refine ⟨w, hw.dir, fun timer ecall => ?_⟩
  exact (demand_paging_iff hw.inv hw.upper hw.dir (by decide) (hw.leaf _ _ _) .store).mpr
    ⟨by decide, hw.framesFor⟩

end LinuxRv.Mm
