import LinuxRv.Proc.Fork

/-!
The user and group ids of a task (`sys_setregid` and `sys_setreuid` of
`kernel/sys.c`).

Each call sets two ids, one after the other, and the second can be refused when
the first has been set. A real id that a task without privilege has set is
either the one it had or is put back.
-/

namespace LinuxRv.Proc

open ByteMemory Prog Minix Function Proc.Kernel

variable (me : Slot)

/-- `suser` -/
def Task.suser (t : Task) : Bool := t.euid = 0

/-- `sys_setregid`, from the effective id on. -/
def setEgid (egid : Word) : ProcM ℤ := do
  if 0 < egid.toInt then
    let cur ← getTask me
    if cur.gid.setWidth 32 = egid ∨ cur.egid.setWidth 32 = egid ∨ cur.sgid.setWidth 32 = egid ∨
        cur.suser then
      updateTask me fun t => { t with egid := egid.setWidth 16 }
      return 0
    else
      return -eperm
  else
    return 0

def sysSetregid (rgid egid : Word) : ProcM ℤ := do
  if 0 < rgid.toInt then
    let cur ← getTask me
    if cur.gid.setWidth 32 = rgid ∨ cur.suser then
      updateTask me fun t => { t with gid := rgid.setWidth 16 }
      setEgid me egid
    else
      return -eperm
  else
    setEgid me egid

def sysSetgid (gid : Word) : ProcM ℤ := sysSetregid me gid gid

/-- `sys_setreuid`, from the effective id on; a real id that has been set is put
back. -/
def setEuid (oldRuid euid : Word) : ProcM ℤ := do
  if 0 < euid.toInt then
    let cur ← getTask me
    if oldRuid = euid ∨ cur.euid.setWidth 32 = euid ∨ cur.suser then
      updateTask me fun t => { t with euid := euid.setWidth 16 }
      return 0
    else
      updateTask me fun t => { t with uid := oldRuid.setWidth 16 }
      return -eperm
  else
    return 0

def sysSetreuid (ruid euid : Word) : ProcM ℤ := do
  let cur ← getTask me
  let oldRuid := cur.uid.setWidth 32
  if 0 < ruid.toInt then
    let cur ← getTask me
    if cur.euid.setWidth 32 = ruid ∨ oldRuid = ruid ∨ cur.suser then
      updateTask me fun t => { t with uid := ruid.setWidth 16 }
      setEuid me oldRuid euid
    else
      return -eperm
  else
    setEuid me oldRuid euid

def sysSetuid (uid : Word) : ProcM ℤ := sysSetreuid me uid uid

section

variable {k : Kernel} {me : Slot} {t : Task} {E : Minix.Halt → Kernel → Prop}

/-- An id fits into the 16 bits it is stored in. -/
theorem setWidth_of_eq {a : BitVec 16} {b : Word} (h : a.setWidth 32 = b) : b.setWidth 16 = a := by
  rw [← h, BitVec.setWidth_setWidth_of_le _ (by decide), BitVec.setWidth_eq]

/-- A refused id leaves everything as it is, and the superuser is not refused. -/
theorem wp_setEgid {egid : Word} (ht : k.task me = some t) :
    wp (setEgid me egid) (fun r k' => r = 0 ∨ k' = k ∧ t.suser = false) E k := by
  rw [setEgid]
  refine wp_ite.mpr ⟨fun _ => ?_, fun _ => wp_pure.mpr (.inl rfl)⟩
  rw [wp_bind, wp_getTask ht]
  refine wp_ite.mpr ⟨fun _ => wp_bind.mpr (wp_updateTask.mpr (wp_pure.mpr (.inl rfl))), fun h => ?_⟩
  exact wp_pure.mpr (.inr ⟨rfl, by simpa using fun hs => h (.inr (.inr (.inr hs)))⟩)

theorem wp_setEuid {oldRuid euid : Word} (ht : k.task me = some t) :
    wp (setEuid me oldRuid euid) (fun r k' => r = 0 ∨
      k' = k.setTask me (some { t with uid := oldRuid.setWidth 16 })) E k := by
  rw [setEuid]
  refine wp_ite.mpr ⟨fun _ => ?_, fun _ => wp_pure.mpr (.inl rfl)⟩
  rw [wp_bind, wp_getTask ht]
  refine wp_ite.mpr ⟨fun _ => ?_, fun _ => ?_⟩
  · exact wp_bind.mpr (wp_updateTask.mpr (wp_pure.mpr (.inl rfl)))
  · rw [wp_bind, wp_updateTask, wp_pure, ht]
    exact .inr rfl

/-- What is returned is 0, or nothing has changed. -/
theorem wp_sysSetregid {rgid egid : Word} (ht : k.task me = some t) :
    wp (sysSetregid me rgid egid) (fun r k' => r = 0 ∨ k' = k) E k := by
  have hsame : k.setTask me (some t) = k := by
    rw [setTask, ← ht, update_eq_self]
  rw [sysSetregid]
  refine wp_ite.mpr ⟨fun _ => ?_, fun _ => (wp_setEgid ht).imp fun _ _ h => h.imp_right And.left⟩
  rw [wp_bind, wp_getTask ht]
  refine wp_ite.mpr ⟨fun hset => ?_, fun _ => wp_pure.mpr (.inr rfl)⟩
  rw [wp_bind, wp_updateTask, ht, Option.map_some]
  refine (wp_setEgid task_setTask_self).imp fun r k' h => h.imp_right fun h => ?_
  rcases hset with hgid | hsuper
  · rw [h.1, setWidth_of_eq hgid]
    exact hsame
  · cases hsuper.symm.trans h.2

theorem wp_sysSetreuid {ruid euid : Word} (ht : k.task me = some t) :
    wp (sysSetreuid me ruid euid) (fun r k' => r = 0 ∨ k' = k) E k := by
  have hback (uid : BitVec 16) : (k.setTask me (some { t with uid := uid })).setTask me
      (some { t with uid := (t.uid.setWidth 32).setWidth 16 }) = k := by
    rw [setWidth_of_eq rfl, setTask_setTask, setTask, ← ht, update_eq_self]
  rw [sysSetreuid, wp_bind, wp_getTask ht]
  refine wp_ite.mpr ⟨fun _ => ?_, fun _ => ?_⟩
  · rw [wp_bind, wp_getTask ht]
    refine wp_ite.mpr ⟨fun _ => ?_, fun _ => wp_pure.mpr (.inr rfl)⟩
    rw [wp_bind, wp_updateTask, ht, Option.map_some]
    refine (wp_setEuid task_setTask_self).imp fun r k' h => h.imp_right fun h => ?_
    exact h.trans (hback _)
  · refine (wp_setEuid ht).imp fun r k' h => h.imp_right fun h => h.trans ?_
    rw [setWidth_of_eq rfl, setTask, ← ht, update_eq_self]

end

inductive IdCall
  | setregid (rgid egid : Word)
  | setgid (gid : Word)
  | setreuid (ruid euid : Word)
  | setuid (uid : Word)

def IdCall.run (me : Slot) : IdCall → ProcM ℤ
  | .setregid rgid egid => sysSetregid me rgid egid
  | .setgid gid => sysSetgid me gid
  | .setreuid ruid euid => sysSetreuid me ruid euid
  | .setuid uid => sysSetuid me uid

/-- A call that returns `-EPERM` has changed nothing, and every call returns. -/
theorem ids_all_or_nothing {k : Kernel} {me : Slot} {t : Task} (ht : k.task me = some t)
    (c : IdCall) : wp (c.run me) (fun r k' => r = -eperm → k' = k) (fun _ _ => False) k := by
  have hreturn {r : ℤ} {k' : Kernel} (h : r = 0 ∨ k' = k) (hr : r = -eperm) : k' = k :=
    h.resolve_left fun h0 => by cases h0.symm.trans hr
  cases c with
  | setregid | setgid => exact (wp_sysSetregid ht).imp fun _ _ => hreturn
  | setreuid | setuid => exact (wp_sysSetreuid ht).imp fun _ _ => hreturn

/-- The effective id is refused when the real one has been set. -/
theorem ids_put_back : ∃ k : Kernel, wp ((IdCall.setreuid 2 3).run 0)
    (fun r k' => r = -eperm ∧ k' = k) (fun _ _ => False) k := by
  let k₀ := single ⟨fun _ => 0, fun _ => 0, false⟩ 0
  let k := k₀.setTask 0 ((k₀.task 0).map fun t => { t with uid := 1, euid := 2 })
  have hrefused : wp ((IdCall.setreuid 2 3).run 0) (fun r _ => r = -eperm) (fun _ _ => False) k := by
    decide +kernel
  refine ⟨k, (wp_and hrefused (ids_all_or_nothing rfl _)).imp fun r k' h => ⟨h.1, h.2 h.1⟩⟩

end LinuxRv.Proc
