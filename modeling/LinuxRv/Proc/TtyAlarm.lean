import LinuxRv.Proc.Scheduler

/-!
The alarm of a task and `tty_read` (`kernel/chr_drv/tty_io.c`).

For its own time limit `tty_read` uses the alarm of the task: it keeps the old
value, and puts it back at the end. It does so also if the old alarm has gone off
in the meantime, which then goes off again, and it does not if the end of the
input is met.

The model is that of one task, with the program in `tty_read` at one of three
places between which the clock ticks, `schedule` is called and characters arrive.
Which alarm the time in the task is for, and how often the signal has been sent
for the last `sys_alarm`, is kept along.
-/

namespace LinuxRv.TtyAlarm

open ByteMemory Proc Option

/-! ### The system -/

/-- What `tty_read` looks at in `struct tty_struct`. -/
structure Terminal where
  /-- The queue `secondary`. -/
  queue : List Byte
  data : Word
  canon : Bool
  vtime : Byte
  vmin : Byte
  eofChar : Byte

/-- `LEFT` of a queue of 1024 characters. -/
def Terminal.left (tty : Terminal) : ℕ := 1023 - tty.queue.length

inductive Place
  /-- The head of the outer loop. -/
  | top
  /-- The loop that polls and calls `schedule`. -/
  | wait
  /-- The loop that takes characters. -/
  | take
  deriving DecidableEq

/-- The local variables of `tty_read`; `got` is `b-buf`. -/
structure Read where
  place : Place
  nr : ℤ
  got : ℕ
  minimum : ℤ
  time : Word
  flag : Bool
  oldalarm : Word
  /-- How often the signal had been sent when the call started. -/
  before : ℕ

structure Sys where
  jiffies : Word
  task : Task
  tty : Terminal
  read : Option Read
  /-- The last `sys_alarm` has set an alarm, for the time `due`. -/
  armed : Bool
  due : Word
  /-- The alarm of the task is that of `sys_alarm`. -/
  own : Bool
  /-- How often the signal has been sent for it. -/
  posts : ℕ

def Sys.setAlarm (s : Sys) (alarm : Word) (own : Bool) : Sys :=
  { s with task := { s.task with alarm := alarm }, own := own }

/-- `sys_alarm` -/
def Sys.alarm (s : Sys) (seconds : Word) : Sys :=
  let alarm := if 0 < seconds.toInt then seconds * 100 + s.jiffies else 0
  { s.setAlarm alarm true with armed := 0 < seconds.toInt, due := alarm, posts := 0 }

/-- The alarm of the task has expired. -/
def Sys.Expires (s : Sys) : Prop := s.task.alarm ≠ 0 ∧ s.task.alarm.toInt < s.jiffies.toInt

instance (s : Sys) : Decidable s.Expires := by
  unfold Sys.Expires
  infer_instance

/-- `schedule` looks at the task. -/
def Sys.check (s : Sys) : Sys :=
  { s with
    task := s.task.expire s.jiffies
    posts := if s.Expires ∧ s.own then s.posts + 1 else s.posts }

/-! ### `tty_read` -/

/-- Is the time limit before the old alarm? -/
def Sys.first (s : Sys) (time oldalarm : Word) : Bool :=
  oldalarm = 0 ∨ (time + s.jiffies).toInt < oldalarm.toInt

/-- The part of `tty_read` before the loop. -/
def Sys.start (s : Sys) (nr : ℤ) : Sys :=
  let old := s.task.alarm
  let time : Word := 10 * s.tty.vtime.setWidth 32
  let limited : Bool := time ≠ 0 ∧ s.tty.vmin = 0
  let flag := limited && s.first time old
  let minimum : ℤ := if limited then 1 else s.tty.vmin.toNat
  let s' := if flag then s.setAlarm (time + s.jiffies) false else s
  { s' with read := some ⟨.top, nr, 0, min minimum nr, time, flag, old, s.posts⟩ }

/-- The part after the loop. -/
def Sys.finish (s : Sys) (r : Read) : Sys := { s.setAlarm r.oldalarm true with read := none }

def Sys.goto (s : Sys) (r : Read) (place : Place) : Sys :=
  { s with read := some { r with place := place } }

/-- A new time limit for the next character. -/
def Sys.limit (s : Sys) (r : Read) : Sys × Read :=
  if r.time ≠ 0 ∧ ¬ s.tty.canon then
    if s.first r.time r.oldalarm then
      (s.setAlarm (r.time + s.jiffies) false, { r with flag := true })
    else
      (s.setAlarm r.oldalarm true, { r with flag := false })
  else (s, r)

/-- The part of the loop after characters have been taken. -/
def Sys.taken (s : Sys) (r : Read) : Sys :=
  let (s', r') := s.limit r
  if (if s.tty.canon then r.got ≠ 0 else r.minimum ≤ r.got) then s'.finish r' else s'.goto r' .top

/-- Other signals are pending, and the terminal has another state. -/
def Sys.other (s : Sys) (signal : Word) (tty : Terminal) : Sys :=
  { s with task := { s.task with signal := signal }, tty := tty }

/-- One step of the call. -/
def Sys.readStep (s : Sys) (r : Read) : Sys :=
  match r.place with
  | .top =>
    if r.nr ≤ 0 then s.finish r
    else if r.flag ∧ s.task.signal &&& sigAlrm ≠ 0 then
      (s.other (s.task.signal &&& ~~~sigAlrm) s.tty).finish r
    else if s.task.signal ≠ 0 then s.finish r
    else if s.tty.queue = [] ∨ s.tty.canon ∧ s.tty.data = 0 ∧ 20 < s.tty.left then
      s.goto r .wait
    else s.goto r .take
  | .wait =>
    if s.task.signal ≠ 0 ∨ s.tty.queue ≠ [] ∧ (¬ s.tty.canon ∨ s.tty.data ≠ 0) then
      s.goto r .top
    else s
  | .take =>
    match s.tty.queue with
    | [] => s.taken r
    | c :: queue =>
      let data := if c = s.tty.eofChar ∨ c = 10 then s.tty.data - 1 else s.tty.data
      let s' := s.other s.task.signal { s.tty with queue := queue, data := data }
      if c = s.tty.eofChar ∧ s.tty.canon then { s' with read := none }
      else
        let r' : Read := { r with nr := r.nr - 1, got := r.got + 1 }
        if r.nr - 1 ≤ 0 ∨ queue = [] then s'.taken r' else s'.goto r' .take

/-! ### Whole runs -/

inductive Event
  | tick
  /-- Somebody calls `schedule`. -/
  | check
  | alarm (seconds : Word)
  /-- The task calls `tty_read`. -/
  | start (nr : ℤ)
  | step
  /-- Signals come and go, and the terminal has new input or new settings. -/
  | other (signal : Word) (tty : Terminal)

/-- The others run while the task waits or runs its program. -/
def Sys.yields (s : Sys) : Bool := s.read.all fun r => r.place = .wait

def Sys.next (s : Sys) : Event → Option Sys
  | .tick => some { s with jiffies := s.jiffies + 1 }
  | .check => if s.yields then some s.check else none
  | .alarm seconds => if s.read.isNone then some (s.alarm seconds) else none
  | .start nr =>
    if s.read.isNone then if nr < 0 then some s else some (s.start nr) else none
  | .step => s.read.map s.readStep
  | .other signal tty =>
    if s.yields then some (s.other signal tty) else none

/-- The old alarm of a call does not expire before the call returns, the settings
of the terminal stay as they are during a call, and a time limit for the first
character is not used with lines. -/
def Careful (s : Sys) : Event → Prop
  | .tick => ∀ r, s.read = some r → r.oldalarm = 0 ∨ (s.jiffies + 1).toInt ≤ r.oldalarm.toInt
  | .alarm seconds => 0 < seconds.toInt → seconds * 100 + s.jiffies ≠ 0
  | .start _ => ¬ s.Expires ∧ (s.tty.canon → s.tty.vtime = 0 ∨ s.tty.vmin ≠ 0)
  | .other _ tty => s.read.isSome → tty.canon = s.tty.canon
  | .check | .step => True

inductive Reach (ok : Sys → Event → Prop) (s₀ : Sys) : Sys → Prop
  | start : Reach ok s₀ s₀
  | step {s s' : Sys} {e : Event} (h : Reach ok s₀ s) (hok : ok s e) (hstep : s.next e = some s') :
      Reach ok s₀ s'

/-- The alarm that is still to go off, 0 for none. -/
def Sys.pending (s : Sys) : Word := if s.armed ∧ s.posts = 0 then s.due else 0

/-- The signal has been sent at most once for the last `sys_alarm`, and not at all
if that was to cancel the alarm; as long as it has not been sent, the time is kept
in the task or in `tty_read`. -/
structure Once (s : Sys) : Prop where
  posts : s.posts ≤ 1
  cancelled : s.armed = false → s.posts = 0
  due : s.armed = true → s.due ≠ 0
  kept : (s.read.elim s.task.alarm fun r => r.oldalarm) = s.pending

/-- The alarm a call of `tty_read` returns with is the old one, and none if that
has gone off. -/
def ReturnsAlarm (s s' : Sys) : Prop :=
  ∀ r, s.read = some r → s'.read = none →
    s'.task.alarm = if s'.posts = r.before then r.oldalarm else 0

/-! ### The invariant -/

/-- What holds of the alarm when the program runs. -/
structure Idle (s : Sys) : Prop where
  alarm : s.task.alarm = s.pending
  own : s.task.alarm ≠ 0 → s.own = true

/-- What holds of the alarm during a call. -/
structure Reading (s : Sys) (r : Read) : Prop where
  old : r.oldalarm = s.pending
  before : s.posts = r.before
  live : r.oldalarm = 0 ∨ s.jiffies.toInt ≤ r.oldalarm.toInt
  slot : s.own = true → s.task.alarm = 0 ∨ s.task.alarm = r.oldalarm
  canon : s.tty.canon = true → s.task.alarm = r.oldalarm ∧ (s.task.alarm ≠ 0 → s.own = true)

/-- What holds of the last `sys_alarm`. -/
structure Counted (s : Sys) : Prop where
  posts : s.posts ≤ 1
  cancelled : s.armed = false → s.posts = 0
  due : s.armed = true → s.due ≠ 0

structure Inv (s : Sys) : Prop extends Counted s where
  idle : s.read = none → Idle s
  reading : ∀ r, s.read = some r → Reading s r

section

variable {s s' : Sys} {r r' : Read}

theorem Inv.once (h : Inv s) : Once s := by
  refine ⟨h.posts, h.cancelled, h.due, ?_⟩
  cases hread : s.read with
  | none => exact (h.idle hread).alarm
  | some r => exact (h.reading r hread).old

/-- Neither `sys_alarm` nor the signal are concerned. -/
structure SameAlarm (s s' : Sys) : Prop where
  armed : s'.armed = s.armed
  due : s'.due = s.due
  posts : s'.posts = s.posts

theorem SameAlarm.trans {s'' : Sys} (h : SameAlarm s s') (h' : SameAlarm s' s'') :
    SameAlarm s s'' :=
  ⟨h'.armed.trans h.armed, h'.due.trans h.due, h'.posts.trans h.posts⟩

theorem SameAlarm.pending (h : SameAlarm s s') : s'.pending = s.pending := by
  rw [Sys.pending, h.armed, h.due, h.posts, Sys.pending]

theorem Counted.congr (h : Counted s) (hsame : SameAlarm s s') : Counted s' := by
  refine ⟨?_, ?_, ?_⟩
  · rw [hsame.posts]
    exact h.posts
  · rw [hsame.posts, hsame.armed]
    exact h.cancelled
  · rw [hsame.armed, hsame.due]
    exact h.due

theorem Counted.finish (h : Counted s) (hr : r.oldalarm = s.pending) : Inv (s.finish r) where
  toCounted := h.congr ⟨rfl, rfl, rfl⟩
  idle _ := ⟨hr, fun _ => rfl⟩
  reading _ hread := nomatch hread

theorem Reading.congr (h : Reading s r) (hold : r'.oldalarm = r.oldalarm)
    (hbefore : r'.before = r.before) : Reading s r' := by
  refine ⟨?_, ?_, ?_, ?_, ?_⟩
  · rw [hold, h.old]
  · rw [hbefore, h.before]
  · rw [hold]
    exact h.live
  · rw [hold]
    exact h.slot
  · rw [hold]
    exact h.canon

theorem Counted.goto {place : Place} (h : Counted s) (hr : Reading s r) : Inv (s.goto r place) where
  toCounted := h.congr ⟨rfl, rfl, rfl⟩
  idle hread := nomatch hread
  reading r' hr' := by
    obtain rfl : { r with place := place } = r' := some.inj hr'
    have hgoto : Reading (s.goto r place) r := ⟨hr.old, hr.before, hr.live, hr.slot, hr.canon⟩
    exact hgoto.congr rfl rfl

/-- An alarm that is put into the task in the middle of a call. -/
theorem Reading.setAlarm (h : Reading s r) (hcanon : ¬ s.tty.canon) (alarm : Word) (own : Bool)
    (hslot : own = true → alarm = r.oldalarm) : Reading (s.setAlarm alarm own) r where
  old := h.old
  before := h.before
  live := h.live
  slot hown := .inr (hslot hown)
  canon hc := absurd hc hcanon

theorem Reading.other (h : Reading s r) {signal : Word} {tty : Terminal}
    (hcanon : tty.canon = s.tty.canon) : Reading (s.other signal tty) r where
  old := h.old
  before := h.before
  live := h.live
  slot := h.slot
  canon hc := h.canon (hcanon.symm.trans hc)

theorem sameAlarm_other (s : Sys) (signal : Word) (tty : Terminal) :
    SameAlarm s (s.other signal tty) := ⟨rfl, rfl, rfl⟩

theorem Reading.limit (h : Reading s r) :
    Reading (s.limit r).1 (s.limit r).2 ∧ SameAlarm s (s.limit r).1 := by
  unfold Sys.limit
  split_ifs with hlimit hfirst
  · have hset := h.setAlarm hlimit.2 (r.time + s.jiffies) false fun h => nomatch h
    exact ⟨hset.congr rfl rfl, rfl, rfl, rfl⟩
  · have hset := h.setAlarm hlimit.2 r.oldalarm true fun _ => rfl
    exact ⟨hset.congr rfl rfl, rfl, rfl, rfl⟩
  · exact ⟨h, rfl, rfl, rfl⟩

theorem Counted.taken (h : Counted s) (hr : Reading s r) : Inv (s.taken r) := by
  obtain ⟨hlimit, hsame⟩ := hr.limit
  unfold Sys.taken
  dsimp only
  split_ifs
  all_goals first
    | exact (h.congr hsame).finish hlimit.old
    | exact (h.congr hsame).goto hlimit

theorem Inv.readStep (h : Inv s) (hread : s.read = some r) : Inv (s.readStep r) := by
  have hr := h.reading r hread
  unfold Sys.readStep
  cases hplace : r.place with
  | top =>
    dsimp only
    split_ifs
    · exact h.finish hr.old
    · exact (h.congr (sameAlarm_other s _ _)).finish hr.old
    · exact h.finish hr.old
    · exact h.goto hr
    · exact h.goto hr
  | wait =>
    dsimp only
    split_ifs
    · exact h.goto hr
    · exact h
  | take =>
    dsimp only
    cases hqueue : s.tty.queue with
    | nil => exact h.taken hr
    | cons c queue =>
      dsimp only
      generalize hs' : s.other s.task.signal _ = s'
      have hr' : Reading s' r := hs' ▸ hr.other rfl
      have hcount : Counted s' := hs' ▸ h.congr (sameAlarm_other s _ _)
      split_ifs with heof
      · -- the end of the input: the alarm is as it is
        have hcanon : s'.tty.canon = true := by rw [← hs']; exact heof.2
        obtain ⟨halarm, hown⟩ := hr'.canon hcanon
        exact ⟨hcount.congr ⟨rfl, rfl, rfl⟩, fun _ => ⟨halarm.trans hr'.old, hown⟩,
          fun _ hnone => nomatch hnone⟩
      · exact hcount.taken (hr'.congr rfl rfl)
      · exact hcount.goto (hr'.congr rfl rfl)

theorem alarm_check (s : Sys) : s.check.task.alarm = if s.Expires then 0 else s.task.alarm := by
  by_cases h : s.Expires
  · rw [if_pos h]
    exact congrArg Task.alarm (if_pos h)
  · rw [if_neg h]
    exact congrArg Task.alarm (if_neg h)

/-- The old alarm does not go off during a call. -/
theorem Reading.not_expires (h : Reading s r) (halarm : s.task.alarm = 0 ∨
    s.task.alarm = r.oldalarm) : ¬ s.Expires := by
  rintro ⟨hne, hlt⟩
  rcases halarm with hzero | hold
  · exact hne hzero
  · rcases h.live with hzero | hle
    · exact hne (hold.trans hzero)
    · rw [hold] at hlt
      exact absurd hlt (not_lt.mpr hle)

theorem Reading.check (h : Reading s r) : Reading s.check r ∧ SameAlarm s s.check := by
  have hsame : SameAlarm s s.check :=
    ⟨rfl, rfl, if_neg fun hown => h.not_expires (h.slot hown.2) hown.1⟩
  refine ⟨⟨h.old.trans hsame.pending.symm, hsame.posts.trans h.before, h.live, fun hown => ?_,
    fun hcanon => ?_⟩, hsame⟩
  · rw [alarm_check, if_neg (h.not_expires (h.slot hown))]
    exact h.slot hown
  · obtain ⟨halarm, hown⟩ := h.canon hcanon
    rw [alarm_check, if_neg (h.not_expires (.inr halarm))]
    exact ⟨halarm, hown⟩

theorem Inv.check (h : Inv s) : Inv s.check := by
  cases hread : s.read with
  | some r =>
    obtain ⟨hr, hsame⟩ := (h.reading r hread).check
    refine ⟨h.congr hsame, fun hnone => ?_, fun r' hr' => ?_⟩
    · exact absurd (hread.symm.trans hnone) (by simp)
    · obtain rfl : r = r' := some.inj (hread.symm.trans hr')
      exact hr
  | none =>
    obtain ⟨halarm, hown⟩ := h.idle hread
    have hnot (r' : Read) (hr' : s.check.read = some r') : Reading s.check r' :=
      absurd (hread.symm.trans hr') (by simp)
    by_cases hexp : s.Expires
    · -- the alarm goes off
      have hposts : s.check.posts = s.posts + 1 := if_pos ⟨hexp, hown hexp.1⟩
      have hfirst : s.armed = true ∧ s.posts = 0 := by
        have hpending : s.pending ≠ 0 := halarm ▸ hexp.1
        unfold Sys.pending at hpending
        by_contra hnot
        exact hpending (if_neg hnot)
      have hzero : s.check.task.alarm = 0 := by rw [alarm_check, if_pos hexp]
      refine ⟨⟨?_, fun hoff => ?_, h.due⟩, fun _ => ⟨?_, fun hne => absurd hzero hne⟩, hnot⟩
      · rw [hposts, hfirst.2]
      · exact absurd (hfirst.1.symm.trans hoff) (by simp)
      · rw [hzero, Sys.pending, if_neg]
        rw [hposts]
        exact fun hno => absurd hno.2 (Nat.succ_ne_zero _)
    · have hsame : SameAlarm s s.check := ⟨rfl, rfl, if_neg fun hno => hexp hno.1⟩
      refine ⟨h.congr hsame, fun _ => ?_, hnot⟩
      have hkeep : s.check.task.alarm = s.task.alarm := by rw [alarm_check, if_neg hexp]
      exact ⟨hkeep.trans (halarm.trans hsame.pending.symm), fun hne => hown (hkeep ▸ hne)⟩

theorem inv_alarm {seconds : Word} (h : 0 < seconds.toInt → seconds * 100 + s.jiffies ≠ 0)
    (hread : s.read = none) : Inv (s.alarm seconds) := by
  have hnone : (s.alarm seconds).read = none := hread
  refine ⟨⟨Nat.zero_le _, fun _ => rfl, fun harmed => ?_⟩, fun _ => ⟨?_, fun _ => rfl⟩,
    fun r hr => absurd (hnone.symm.trans hr) (by simp)⟩
  · have hpos : 0 < seconds.toInt := of_decide_eq_true harmed
    show (if 0 < seconds.toInt then seconds * 100 + s.jiffies else 0) ≠ 0
    rw [if_pos hpos]
    exact h hpos
  · show (if 0 < seconds.toInt then seconds * 100 + s.jiffies else 0) = _
    unfold Sys.pending Sys.alarm
    by_cases hpos : 0 < seconds.toInt
    · simp [hpos]
    · simp [hpos]

theorem Inv.start {nr : ℤ} (h : Inv s) (hread : s.read = none) (hlive : ¬ s.Expires)
    (hcanon : s.tty.canon → s.tty.vtime = 0 ∨ s.tty.vmin ≠ 0) : Inv (s.start nr) := by
  obtain ⟨halarm, hown⟩ := h.idle hread
  have hold : s.task.alarm = 0 ∨ s.jiffies.toInt ≤ s.task.alarm.toInt := by
    by_contra hnot
    obtain ⟨hne, hlt⟩ := not_or.mp hnot
    exact hlive ⟨hne, not_le.mp hlt⟩
  have hread' {s' : Sys} {r : Read} (hr : Reading s' r) (hsame : SameAlarm s s') :
      Inv { s' with read := some r } := by
    refine ⟨h.congr ⟨hsame.armed, hsame.due, hsame.posts⟩, (nomatch ·), fun r' hr' => ?_⟩
    obtain rfl := some.inj hr'
    exact ⟨hr.old, hr.before, hr.live, hr.slot, hr.canon⟩
  have hlines (hc : s.tty.canon = true) :
      ¬ (10 * s.tty.vtime.setWidth 32 ≠ (0 : Word) ∧ s.tty.vmin = 0) := by
    rintro ⟨htime, hmin⟩
    rcases hcanon hc with hzero | hne
    · exact htime (by rw [hzero]; rfl)
    · exact hne hmin
  unfold Sys.start
  dsimp only
  by_cases hflag : (decide (10 * s.tty.vtime.setWidth 32 ≠ (0 : Word) ∧ s.tty.vmin = 0) &&
      s.first (10 * s.tty.vtime.setWidth 32) s.task.alarm) = true
  · have hlimited := of_decide_eq_true (Bool.and_eq_true_iff.mp hflag).1
    rw [if_pos hflag]
    refine hread' ⟨halarm, rfl, hold, (nomatch ·), fun hc => ?_⟩ ⟨rfl, rfl, rfl⟩
    exact absurd hlimited (hlines hc)
  · rw [if_neg hflag]
    exact hread' ⟨halarm, rfl, hold, fun _ => .inr rfl, fun _ => ⟨rfl, hown⟩⟩ ⟨rfl, rfl, rfl⟩

/-! ### The result -/

/-- An event that is careful keeps the invariant. -/
theorem Inv.next {e : Event} (h : Inv s) (hok : Careful s e) (hstep : s.next e = some s') :
    Inv s' := by
  cases e with
  | tick =>
    obtain rfl := some.inj hstep
    refine ⟨h.congr ⟨rfl, rfl, rfl⟩, fun hnone => ?_, fun r hr => ?_⟩
    · exact ⟨(h.idle hnone).alarm, (h.idle hnone).own⟩
    · have hread := h.reading r hr
      exact ⟨hread.old, hread.before, hok r hr, hread.slot, hread.canon⟩
  | check =>
    obtain ⟨-, hs'⟩ := ite_none_right_eq_some.mp hstep
    exact some.inj hs' ▸ h.check
  | alarm seconds =>
    obtain ⟨hnone, hs'⟩ := ite_none_right_eq_some.mp hstep
    exact some.inj hs' ▸ inv_alarm hok (isNone_iff_eq_none.mp hnone)
  | start nr =>
    obtain ⟨hnone, hstart⟩ := ite_none_right_eq_some.mp hstep
    split_ifs at hstart
    · exact some.inj hstart ▸ h
    · exact some.inj hstart ▸ h.start (isNone_iff_eq_none.mp hnone) hok.1 hok.2
  | step =>
    obtain ⟨r, hr, rfl⟩ := map_eq_some_iff.mp hstep
    exact h.readStep hr
  | other signal tty =>
    obtain ⟨-, hs'⟩ := ite_none_right_eq_some.mp hstep
    obtain rfl := some.inj hs'
    refine ⟨h.congr (sameAlarm_other s _ _), fun hnone => ?_, fun r hr => ?_⟩
    · exact ⟨(h.idle hnone).alarm, (h.idle hnone).own⟩
    · have hsome : s.read = some r := hr
      exact (h.reading r hsome).other (hok (by rw [hsome]; rfl))

theorem Reach.inv {s₀ : Sys} (hrun : Reach Careful s₀ s) (h : Inv s₀) : Inv s := by
  induction hrun with
  | start => exact h
  | step _ hok hstep ih => exact ih.next hok hstep

theorem sameAlarm_taken (s : Sys) (r : Read) : SameAlarm s (s.taken r) := by
  unfold Sys.taken Sys.limit
  split_ifs <;> exact ⟨rfl, rfl, rfl⟩

theorem sameAlarm_readStep (s : Sys) (r : Read) : SameAlarm s (s.readStep r) := by
  unfold Sys.readStep
  cases r.place with
  | top =>
    dsimp only
    split_ifs <;> exact ⟨rfl, rfl, rfl⟩
  | wait =>
    dsimp only
    split_ifs <;> exact ⟨rfl, rfl, rfl⟩
  | take =>
    cases s.tty.queue with
    | nil => exact sameAlarm_taken s r
    | cons c queue =>
      dsimp only
      generalize hs' : s.other s.task.signal _ = s'
      have hsame : SameAlarm s s' := hs' ▸ sameAlarm_other s _ _
      split_ifs
      · exact ⟨hsame.armed, hsame.due, hsame.posts⟩
      · exact hsame.trans (sameAlarm_taken s' _)
      · exact ⟨hsame.armed, hsame.due, hsame.posts⟩

theorem Inv.returnsAlarm {e : Event} (h : Inv s) (hok : Careful s e)
    (hstep : s.next e = some s') : ReturnsAlarm s s' := by
  intro r hr hnone
  have halarm := ((h.next hok hstep).idle hnone).alarm
  have hread := h.reading r hr
  -- only a step of the call itself ends it
  have hsame : SameAlarm s s' := by
    cases e with
    | step =>
      obtain ⟨r', -, rfl⟩ := map_eq_some_iff.mp hstep
      exact sameAlarm_readStep s r'
    | tick =>
      obtain rfl := some.inj hstep
      exact absurd (hr.symm.trans hnone) (by simp)
    | check =>
      obtain ⟨-, hs'⟩ := ite_none_right_eq_some.mp hstep
      obtain rfl := some.inj hs'
      exact absurd (hr.symm.trans hnone) (by simp)
    | alarm seconds =>
      obtain ⟨hidle, -⟩ := ite_none_right_eq_some.mp hstep
      rw [hr] at hidle
      cases hidle
    | start nr =>
      obtain ⟨hidle, -⟩ := ite_none_right_eq_some.mp hstep
      rw [hr] at hidle
      cases hidle
    | other signal tty =>
      obtain ⟨-, hs'⟩ := ite_none_right_eq_some.mp hstep
      obtain rfl := some.inj hs'
      exact absurd (hr.symm.trans hnone) (by simp)
  rw [if_pos (hsame.posts.trans hread.before), halarm, hsame.pending, hread.old]

/-- The task has no alarm, and its program runs. -/
structure Quiet (s : Sys) : Prop where
  read : s.read = none
  armed : s.armed = false
  posts : s.posts = 0
  alarm : s.task.alarm = 0

theorem Quiet.inv (h : Quiet s) : Inv s := by
  refine ⟨⟨h.posts.le.trans (Nat.zero_le 1), fun _ => h.posts, fun harmed => ?_⟩, fun _ => ⟨?_, ?_⟩,
    fun r hr => absurd (h.read.symm.trans hr) (by simp)⟩
  · exact absurd (h.armed.symm.trans harmed) (by simp)
  · rw [h.alarm, Sys.pending, h.armed]
    rfl
  · exact fun hne => absurd h.alarm hne

end

/-- A program at a terminal that has the input `queue` with one line end in it. -/
def atTerminal (vtime : Byte) (queue : List Byte) : Sys where
  jiffies := 0
  task := (Kernel.single ⟨fun _ => 0, fun _ => 1, false⟩ 0).task 0 |>.get rfl
  tty := ⟨queue, 1, true, vtime, 0, 4⟩
  read := none
  armed := false
  due := 0
  own := true
  posts := 0

theorem quiet_atTerminal (vtime : Byte) (queue : List Byte) : Quiet (atTerminal vtime queue) :=
  ⟨rfl, rfl, rfl, rfl⟩

/-- One event after the other. -/
def Sys.run (s : Sys) (l : List Event) : Option Sys := l.foldlM next s

theorem reach_run {s₀ s s' : Sys} {l : List Event} (h : Reach (fun _ _ => True) s₀ s)
    (hrun : s.run l = some s') : Reach (fun _ _ => True) s₀ s' := by
  induction l generalizing s with
  | nil => exact some.inj hrun ▸ h
  | cons e l ih =>
    obtain ⟨s₁, hs₁, hrest⟩ := bind_eq_some_iff.mp (List.foldlM_cons.symm.trans hrun)
    exact ih (h.step trivial hs₁) hrest

/-- The alarm goes off while the task waits for input, and again after `tty_read`
has put it back. -/
def alarmTwice : List Event :=
  [.alarm 1, .start 10, .step] ++ List.replicate 101 .tick ++ [.check, .step, .step, .check]

/-- The input ends in a call with a time limit. -/
def endOfInput : List Event := [.start 10, .step]

end LinuxRv.TtyAlarm
