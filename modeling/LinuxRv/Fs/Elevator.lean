import LinuxRv.Fs.DiskBounds
import LinuxRv.Lib.Sweep

/-!
The elevator (`add_request` of `kernel/blk_drv/ll_rw_blk.c`): a request that finds
others waiting is inserted into their list where `Sweep.sweep` would put it.
-/

namespace LinuxRv.Fs

open ByteMemory Prog Links Sweep Function Option Cache

variable {m : ℕ}

/-- What `IN_ORDER` compares. -/
def Request.key (q : Request m) : Cmd × Option Dev × BitVec 32 := (q.cmd, q.dev, q.sector)

/-- `dev` as an `int`. -/
def Request.devNr (q : Request m) : ℤ := q.dev.elim (-1) fun d => d.toNat

theorem devNr_inj {a b : Request m} (h : a.devNr = b.devNr) : a.dev = b.dev := by
  rw [Request.devNr, Request.devNr] at h
  cases ha : a.dev with
  | none =>
    cases hb : b.dev with
    | none => rfl
    | some e =>
      rw [ha, hb, elim_none, elim_some] at h
      omega
  | some d =>
    cases hb : b.dev with
    | none =>
      rw [ha, hb, elim_none, elim_some] at h
      omega
    | some e =>
      rw [ha, hb, elim_some, elim_some] at h
      exact congrArg some (BitVec.eq_of_toNat_eq (Int.ofNat.inj h))

/-- Of two requests with different keys one goes before the other. -/
theorem inOrder_total {a b : Request m} (h : a.key ≠ b.key) :
    inOrder a b = true ∨ inOrder b a = true := by
  have hsame (hcmd : a.cmd = b.cmd) :
      (a.devNr < b.devNr || (a.devNr == b.devNr && a.sector < b.sector)) = true ∨
        (b.devNr < a.devNr || (b.devNr == a.devNr && b.sector < a.sector)) = true := by
    simp only [Bool.or_eq_true, Bool.and_eq_true, beq_iff_eq, decide_eq_true_eq]
    rcases lt_trichotomy a.devNr b.devNr with hlt | heq | hgt
    · exact .inl (.inl hlt)
    · rcases lt_trichotomy a.sector.toNat b.sector.toNat with hlt | hsector | hgt
      · exact .inl (.inr ⟨heq, hlt⟩)
      · exact absurd (Prod.ext hcmd (Prod.ext (devNr_inj heq) (BitVec.eq_of_toNat_eq hsector))) h
      · exact .inr (.inr ⟨heq.symm, hgt⟩)
    · exact .inr (.inl hgt)
  unfold inOrder
  cases ha : a.cmd <;> cases hb : b.cmd
  · exact hsame (ha.trans hb.symm)
  · exact .inl rfl
  · exact .inr rfl
  · exact hsame (ha.trans hb.symm)

/-- The requests that wait, in the order of the list. -/
def Cache.Queued (s : Cache m) (l : List (Fin nrRequest)) : Prop :=
  Trail (fun r => (s.request r).next) s.currentRequest l

/-- `IN_ORDER` of two places of the table. -/
def Cache.before (s : Cache m) (a b : Fin nrRequest) : Bool := inOrder (s.request a) (s.request b)

section

variable {rd : RamDisk} {s : Cache m} {r tmp : Fin nrRequest} {l : List (Fin nrRequest)} {fuel : ℕ}

theorem elevator_succ : elevator (s.request r) (fuel + 1) tmp s =
    match (s.request tmp).next with
    | none => .ok tmp s
    | some nx => if (s.before tmp r || !s.before tmp nx) && s.before r nx then .ok tmp s
        else elevator (s.request r) fuel nx s := by
  rw [elevator]
  change (match (s.request tmp).next with | none => _ | some nx => _ : CacheM m _) s = _
  cases (s.request tmp).next with
  | none => rfl
  | some nx =>
    by_cases hplace : ((s.before tmp r || !s.before tmp nx) && s.before r nx) = true
    · exact (congrFun (if_pos hplace) s).trans (if_pos hplace).symm
    · exact (congrFun (if_neg hplace) s).trans (if_neg hplace).symm

/-- The loop finds the place behind which `sweep` inserts. -/
theorem elevator_run (h : Trail (fun r => (s.request r).next) (some tmp) (tmp :: l))
    (hfuel : l.length < fuel) : ∃ front x back, tmp :: l = front ++ x :: back ∧
      sweep s.before r tmp l = front ++ x :: r :: back ∧
      elevator (s.request r) fuel tmp s = .ok x s := by
  induction l generalizing tmp fuel with
  | nil =>
    obtain ⟨fuel, rfl⟩ := Nat.exists_eq_succ_of_ne_zero (Nat.ne_of_gt hfuel)
    cases h with
    | cons h =>
      have hnext : (s.request tmp).next = none := h.head_eq
      exact ⟨[], tmp, [], rfl, rfl, by rw [elevator_succ, hnext]⟩
  | cons nx l ih =>
    obtain ⟨fuel, rfl⟩ := Nat.exists_eq_succ_of_ne_zero (Nat.ne_of_gt (Nat.zero_lt_of_lt hfuel))
    cases h with
    | cons h =>
      have hnext : (s.request tmp).next = some nx := h.head_eq
      rw [elevator_succ, hnext, sweep]
      by_cases hplace : ((s.before tmp r || !s.before tmp nx) && s.before r nx) = true
      · simp only [hplace, if_true]
        exact ⟨[], tmp, nx :: l, rfl, rfl, rfl⟩
      · simp only [hplace]
        obtain ⟨front, x, back, hl, hs, hrun⟩ := @ih nx fuel (hnext ▸ h)
          (Nat.lt_of_succ_lt_succ hfuel)
        exact ⟨tmp :: front, x, back, congrArg (tmp :: ·) hl, congrArg (tmp :: ·) hs, hrun⟩

theorem inOrder_congr {a a' b b' : Request m} (ha : a'.key = a.key) (hb : b'.key = b.key) :
    inOrder a' b' = inOrder a b := by
  obtain ⟨hacmd, hadev, hasector⟩ := Prod.mk.inj ha |>.imp_right Prod.mk.inj
  obtain ⟨hbcmd, hbdev, hbsector⟩ := Prod.mk.inj hb |>.imp_right Prod.mk.inj
  simp only [inOrder, hacmd, hadev, hasector, hbcmd, hbdev, hbsector]

/-- `req->next=tmp->next; tmp->next=req` -/
def Cache.linkAfter (s : Cache m) (x r : Fin nrRequest) : Cache m :=
  let s := s.setRequest r { s.request r with next := (s.request x).next }
  s.setRequest x { s.request x with next := some r }

theorem next_linkAfter {x : Fin nrRequest} (hx : r ≠ x) :
    (fun y => ((s.linkAfter x r).request y).next) =
      update (update (fun y => (s.request y).next) r (s.request x).next) x (some r) := by
  funext y
  by_cases hyx : y = x
  · subst hyx
    simp [linkAfter, setRequest]
  · by_cases hyr : y = r
    · subst hyr
      simp [linkAfter, setRequest, hyx]
    · simp [linkAfter, setRequest, hyx, hyr]

theorem key_linkAfter (s : Cache m) (x r y : Fin nrRequest) :
    ((s.linkAfter x r).request y).key = (s.request y).key := by
  simp only [linkAfter, setRequest, update_apply]
  split
  · next hyx =>
      subst hyx
      split
      · next hyr => rw [hyr]; rfl
      · rfl
  · split
    · next hyr => rw [hyr]; rfl
    · rfl

end

/-- Block 4 is asked for while block 1 is being read. -/
def secondRead : Cache 0 := (oneRead 1).setRequest 1 ⟨some rdDev, .read, 8, 0, none⟩

end LinuxRv.Fs
