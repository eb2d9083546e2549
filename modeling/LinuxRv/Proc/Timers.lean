import LinuxRv.Lib.Links
import LinuxRv.Lib.Prog
import Mathlib.Algebra.Order.BigOperators.Group.List
import Mathlib.Algebra.Order.Ring.Int
import Mathlib.Data.Fintype.Card

/-!
The timer queue of `kernel/sched.c`.

A pending timer stores how many ticks it comes after the one before it.
`add_timer` puts a request at the front and moves it back past every timer that
is due earlier, subtracting their differences on the way. The timer it stops in
front of keeps its own difference, which now counts from the new request: it is
late by what was left of the request, and so is everything behind it.

The queue is compared with a clock that knows for every outstanding timer the
tick at which it is due.
-/

namespace LinuxRv.Timers

open Prog Links Function List

/-! ### The source -/

def timeRequests : ℕ := 64

/-- `struct timer_list`, with callbacks of any type. -/
structure Timer (φ : Type) where
  jiffies : ℤ
  fn : Option φ
  next : Option (Fin timeRequests)

structure State (φ : Type) where
  timerList : Fin timeRequests → Timer φ
  nextTimer : Option (Fin timeRequests)
  /-- Not in the source: the callbacks that have been run. -/
  ran : List φ

inductive Halt
  | panic (message : String)
  | hang
  deriving DecidableEq

variable {φ : Type}

abbrev TimerM (φ : Type) := EStateM Halt (State φ)

def State.setTimer (s : State φ) (p : Fin timeRequests) (t : Timer φ) : State φ :=
  { s with timerList := update s.timerList p t }

def State.setNextTimer (s : State φ) (p : Option (Fin timeRequests)) : State φ :=
  { s with nextTimer := p }

/-- `(fn)()`. -/
def callFn : Option φ → TimerM φ PUnit
  | none => throw (.panic "kernel trap")
  | some f => modify fun s => { s with ran := s.ran ++ [f] }

/-- `while (p->next && p->next->jiffies < p->jiffies)`: the two entries swap what
they hold. -/
def moveBack : ℕ → Fin timeRequests → TimerM φ PUnit
  | 0, _ => throw .hang
  | fuel + 1, p => do
      let s ← get
      let t := s.timerList p
      match t.next with
      | none => pure ⟨⟩
      | some q =>
        let u := s.timerList q
        if u.jiffies < t.jiffies then
          set ((s.setTimer p { t with jiffies := u.jiffies, fn := u.fn }).setTimer q
            { u with jiffies := t.jiffies - u.jiffies, fn := t.fn })
          moveBack fuel q

def addTimer (jiffies : ℤ) (fn : Option φ) : TimerM φ PUnit := do
  if fn.isNone then
    pure ⟨⟩
  else if jiffies ≤ 0 then
    callFn fn
  else
    let s ← get
    match (finRange timeRequests).find? fun p => (s.timerList p).fn.isNone with
    | none => throw (.panic "No more time requests free")
    | some p =>
      set ((s.setTimer p ⟨jiffies, fn, s.nextTimer⟩).setNextTimer (some p))
      moveBack (timeRequests + 1) p

/-- `while (next_timer && next_timer->jiffies <= 0)`. -/
def expire : ℕ → TimerM φ PUnit
  | 0 => throw .hang
  | fuel + 1 => do
      let s ← get
      match s.nextTimer with
      | none => pure ⟨⟩
      | some p =>
        let t := s.timerList p
        if t.jiffies ≤ 0 then
          set ((s.setTimer p { t with fn := none }).setNextTimer t.next)
          callFn t.fn
          expire fuel

/-- What `do_timer` does with the queue. -/
def doTimer : TimerM φ PUnit := do
  let s ← get
  match s.nextTimer with
  | none => pure ⟨⟩
  | some p =>
    let t := s.timerList p
    set (s.setTimer p { t with jiffies := t.jiffies - 1 })
    expire (timeRequests + 1)

/-! ### The queue as a list -/

/-- The pending timers, as differences with their callbacks. -/
abbrev Queue (φ : Type) := List (ℤ × φ)

/-- Where `add_timer` puts a request, and what it leaves of it. -/
def Queue.insert (j : ℤ) (f : φ) : Queue φ → Queue φ
  | [] => [(j, f)]
  | (d, g) :: l => if d < j then (d, g) :: Queue.insert (j - d) f l else (j, f) :: (d, g) :: l

/-- A tick takes one off the first difference. -/
def Queue.tick : Queue φ → List φ × Queue φ
  | [] => ([], [])
  | (d, f) :: l => if d ≤ 1 then ([f], l) else ([], (d - 1, f) :: l)

/-- What an entry holds besides its link. -/
def Timer.value (t : Timer φ) : ℤ × Option φ := (t.jiffies, t.fn)

/-- The entries `ps` are linked in this order and hold `l`, and the others are
free. -/
structure Holds (s : State φ) (ps : List (Fin timeRequests)) (l : Queue φ) : Prop where
  trail : Trail (fun p => (s.timerList p).next) s.nextTimer ps
  values : ps.map (fun p => (s.timerList p).value) = l.map fun x => (x.1, some x.2)
  free : ∀ p ∉ ps, (s.timerList p).fn = none
  positive : ∀ x ∈ l, 0 < x.1

section

variable {s : State φ} {ps : List (Fin timeRequests)} {l : Queue φ} {Q : PUnit → State φ → Prop}
  {E : Halt → State φ → Prop} {p : Fin timeRequests} {fuel : ℕ}

@[simp] theorem State.timerList_setTimer (s : State φ) (p : Fin timeRequests) (t : Timer φ) :
    (s.setTimer p t).timerList = update s.timerList p t := rfl

theorem Queue.length_insert (j : ℤ) (f : φ) (l : Queue φ) :
    (insert j f l).length = l.length + 1 := by
  induction l generalizing j with
  | nil => rfl
  | cons x l ih =>
    obtain ⟨d, g⟩ := x
    rw [insert]
    split
    · rw [length_cons, ih, length_cons]
    · rfl

theorem Queue.insert_positive {j : ℤ} {f : φ} {l : Queue φ} (hj : 0 < j)
    (hl : ∀ x ∈ l, 0 < x.1) : ∀ x ∈ insert j f l, 0 < x.1 := by
  induction l generalizing j with
  | nil => simpa [insert] using hj
  | cons y l ih =>
    obtain ⟨d, g⟩ := y
    obtain ⟨hd, hl⟩ := forall_mem_cons.mp hl
    rw [insert]
    split
    · rename_i hlt
      exact forall_mem_cons.mpr ⟨hd, ih (by omega) hl⟩
    · exact forall_mem_cons.mpr ⟨hj, forall_mem_cons.mpr ⟨hd, hl⟩⟩

theorem Holds.length_eq (h : Holds s ps l) : ps.length = l.length := by
  simpa using congrArg length h.values

theorem Holds.length_le (h : Holds s ps l) : ps.length ≤ timeRequests := by
  simpa using h.trail.nodup.length_le_card

/-- The walk of a request `(j, f)` at `p` along the entries `ps`. -/
theorem wp_moveBack {j : ℤ} {f : φ}
    (htrail : Trail (fun q => (s.timerList q).next) (s.timerList p).next ps) (hp : p ∉ ps)
    (hvalue : (s.timerList p).value = (j, some f))
    (hvalues : ps.map (fun q => (s.timerList q).value) = l.map fun x => (x.1, some x.2))
    (hfuel : ps.length < fuel) (hQ : ∀ s', s'.nextTimer = s.nextTimer → s'.ran = s.ran →
      (∀ q, (s'.timerList q).next = (s.timerList q).next) →
      (∀ q ∉ p :: ps, s'.timerList q = s.timerList q) →
      (p :: ps).map (fun q => (s'.timerList q).value) =
        (Queue.insert j f l).map (fun x => (x.1, some x.2)) → Q ⟨⟩ s') :
    wp (moveBack fuel p) Q E s := by
  induction ps generalizing fuel p j l s with
  | nil =>
    obtain ⟨fuel, rfl⟩ : ∃ n, fuel = n + 1 := ⟨fuel - 1, by simp at hfuel; omega⟩
    obtain rfl : l = [] := by simpa using hvalues.symm
    have hnext : (s.timerList p).next = none := by
      generalize (s.timerList p).next = head at htrail
      cases htrail
      rfl
    rw [moveBack, wp_bind, wp_get]
    simp only [hnext, wp_pure]
    exact hQ s rfl rfl (fun _ => rfl) (fun _ _ => rfl) (by simp [Queue.insert, hvalue])
  | cons q ps ih =>
    obtain ⟨fuel, rfl⟩ : ∃ n, fuel = n + 1 := ⟨fuel - 1, by simp at hfuel; omega⟩
    obtain ⟨⟨d, g⟩, l, rfl⟩ : ∃ x l', l = x :: l' := by
      cases l with
      | nil => simp at hvalues
      | cons x l => exact ⟨x, l, rfl⟩
    simp only [map_cons, cons.injEq] at hvalues
    obtain ⟨hq, hvalues⟩ := hvalues
    obtain ⟨hnext, htrail'⟩ : (s.timerList p).next = some q ∧
        Trail (fun q => (s.timerList q).next) (s.timerList q).next ps := by
      generalize (s.timerList p).next = head at htrail
      cases htrail with
      | cons h => exact ⟨rfl, h⟩
    obtain ⟨hpq, hps⟩ : p ≠ q ∧ p ∉ ps := by simpa using hp
    have hqps : q ∉ ps := (nodup_cons.mp htrail.nodup).1
    simp only [Timer.value, Prod.mk.injEq] at hvalue hq
    rw [moveBack, wp_bind, wp_get]
    simp only [hnext, hvalue.1, hvalue.2, hq.1, hq.2, wp_ite, wp_bind, wp_set, wp_pure]
    refine ⟨fun hlt => ?_, fun hge => ?_⟩
    · -- `p` keeps the difference and the callback of `q`, and the request goes on from there
      set s₁ := (s.setTimer p ⟨d, some g, some q⟩).setTimer q
        ⟨j - d, some f, (s.timerList q).next⟩ with hs₁
      have hself : s₁.timerList q = ⟨j - d, some f, (s.timerList q).next⟩ :=
        update_self ..
      have hbehind : s₁.timerList p = ⟨d, some g, some q⟩ := by
        rw [hs₁, State.timerList_setTimer, update_of_ne hpq, State.timerList_setTimer, update_self]
      have hother {r : Fin timeRequests} (hrp : r ≠ p) (hrq : r ≠ q) :
          s₁.timerList r = s.timerList r := by
        rw [hs₁, State.timerList_setTimer, update_of_ne hrq, State.timerList_setTimer,
          update_of_ne hrp]
      have hrest {r : Fin timeRequests} (hr : r ∈ ps) : s₁.timerList r = s.timerList r :=
        hother (ne_of_mem_of_not_mem hr hps) (ne_of_mem_of_not_mem hr hqps)
      have hlinks (r : Fin timeRequests) : (s₁.timerList r).next = (s.timerList r).next := by
        by_cases hrq : r = q
        · rw [hrq, hself]
        · by_cases hrp : r = p
          · rw [hrp, hbehind, hnext]
          · rw [hother hrp hrq]
      refine ih (s := s₁) (l := l) (j := j - d) ?_ hqps (by rw [hself]; rfl) ?_
        (by simpa using hfuel) fun s' h1 h2 h3 h4 h5 => ?_
      · rw [hlinks]
        exact htrail'.congr fun r _ => hlinks r
      · rw [← hvalues]
        exact map_congr_left fun r hr => by rw [hrest hr]
      · refine hQ s' h1 h2 (fun r => (h3 r).trans (hlinks r)) (fun r hr => ?_) ?_
        · have hr' : r ∉ q :: ps := not_mem_of_not_mem_cons hr
          rw [h4 r hr', hother (ne_of_not_mem_cons hr) (ne_of_not_mem_cons hr')]
        · have hnot : p ∉ q :: ps := hp
          rw [map_cons, h5, h4 p hnot, hbehind, Queue.insert, if_pos hlt]
          rfl
    · refine hQ s rfl rfl (fun _ => rfl) (fun _ _ => rfl) ?_
      rw [Queue.insert, if_neg hge]
      simp only [map_cons, hvalues]
      simp only [Timer.value, hvalue.1, hvalue.2, hq.1, hq.2]

theorem Holds.exists_value (h : Holds s ps l) (hp : p ∈ ps) :
    ∃ x ∈ l, (s.timerList p).value = (x.1, some x.2) := by
  have hmem : (s.timerList p).value ∈ l.map fun x => (x.1, some x.2) := by
    rw [← h.values]
    exact mem_map.mpr ⟨p, hp, rfl⟩
  obtain ⟨x, hx, heq⟩ := mem_map.mp hmem
  exact ⟨x, hx, heq.symm⟩

theorem Holds.fn_ne_none (h : Holds s ps l) (hp : p ∈ ps) : (s.timerList p).fn ≠ none := by
  obtain ⟨x, -, hx⟩ := h.exists_value hp
  rw [show (s.timerList p).fn = some x.2 from congrArg Prod.snd hx]
  simp

/-- `add_timer` while there is a free entry. -/
theorem Holds.wp_addTimer (h : Holds s ps l) {j : ℤ} {f : φ} (hj : 0 < j)
    (hroom : l.length < timeRequests)
    (hQ : ∀ ps' s', Holds s' ps' (Queue.insert j f l) → s'.ran = s.ran → Q ⟨⟩ s') :
    wp (addTimer j (some f)) Q E s := by
  rw [addTimer]
  simp only [Option.isNone_some, Bool.false_eq_true, if_false, not_le.mpr hj, wp_bind, wp_get]
  cases hfind : (finRange timeRequests).find? fun p => (s.timerList p).fn.isNone with
  | none =>
    -- all entries taken: the queue has as many timers as there are
    have htaken : finRange timeRequests ⊆ ps := by
      intro p hp
      by_contra hnot
      have hsome := find?_eq_none.mp hfind p hp
      rw [h.free p hnot] at hsome
      exact hsome rfl
    have hle := ((nodup_finRange timeRequests).subperm htaken).length_le
    rw [length_finRange, h.length_eq] at hle
    exact absurd hroom (not_lt.mpr hle)
  | some p =>
    have hpfree : (s.timerList p).fn = none := by
      simpa using find?_some hfind
    have hp : p ∉ ps := by
      intro hmem
      exact h.fn_ne_none hmem hpfree
    simp only [wp_bind, wp_set]
    set s₁ := (s.setTimer p ⟨j, some f, s.nextTimer⟩).setNextTimer (some p) with hs₁
    have hself : s₁.timerList p = ⟨j, some f, s.nextTimer⟩ := update_self ..
    have hother {q : Fin timeRequests} (hq : q ≠ p) : s₁.timerList q = s.timerList q :=
      update_of_ne hq ..
    have hlinked {q : Fin timeRequests} (hq : q ∈ ps) : s₁.timerList q = s.timerList q :=
      hother (ne_of_mem_of_not_mem hq hp)
    have htrail : Trail (fun q => (s₁.timerList q).next) (s₁.timerList p).next ps := by
      rw [hself]
      exact h.trail.congr fun q hq => by rw [hlinked hq]
    refine wp_moveBack (s := s₁) htrail hp (by rw [hself]; rfl)
      ((map_congr_left fun q hq => by rw [hlinked hq]).trans h.values)
      (Nat.lt_succ_of_le h.length_le) fun s' h1 h2 h3 h4 h5 => ?_
    refine hQ (p :: ps) s' ⟨?_, h5, fun q hq => ?_, Queue.insert_positive hj h.positive⟩ h2
    · rw [h1]
      refine .cons ?_
      rw [h3]
      exact htrail.congr fun q _ => h3 q
    · rw [h4 q hq, hother (ne_of_not_mem_cons hq)]
      exact h.free q (not_mem_of_not_mem_cons hq)

/-- The loop of `do_timer` stops at once when all differences are positive. -/
theorem Holds.wp_expire (h : Holds s ps l) (hQ : Q ⟨⟩ s) : wp (expire (fuel + 1)) Q E s := by
  rw [expire, wp_bind, wp_get]
  cases hnext : s.nextTimer with
  | none => exact wp_pure.mpr hQ
  | some p =>
    have hp : p ∈ ps := by
      have htrail := h.trail
      rw [hnext] at htrail
      cases htrail
      simp
    obtain ⟨x, hx, hvalue⟩ := h.exists_value hp
    have hpos : ¬ (s.timerList p).jiffies ≤ 0 := by
      rw [show (s.timerList p).jiffies = x.1 from congrArg Prod.fst hvalue]
      exact not_le.mpr (h.positive x hx)
    simp only [hpos, if_false]
    exact wp_pure.mpr hQ

theorem Holds.wp_doTimer (h : Holds s ps l)
    (hQ : ∀ ps' s', Holds s' ps' l.tick.2 → s'.ran = s.ran ++ l.tick.1 → Q ⟨⟩ s') :
    wp doTimer Q E s := by
  obtain ⟨htrail, hvalues, hfree, hpos⟩ := h
  rw [doTimer, wp_bind, wp_get]
  cases htrail' : s.nextTimer with
  | none =>
    rw [htrail'] at htrail
    cases htrail
    obtain rfl : l = [] := by simpa using hvalues.symm
    refine wp_pure.mpr (hQ [] s ⟨?_, rfl, hfree, hpos⟩ (append_nil _).symm)
    rw [htrail']
    exact .nil
  | some p =>
    rw [htrail'] at htrail
    obtain ⟨ps, rfl, hrest⟩ : ∃ ps', ps = p :: ps' ∧
        Trail (fun q => (s.timerList q).next) (s.timerList p).next ps' := by
      cases htrail with
      | cons h => exact ⟨_, rfl, h⟩
    obtain ⟨⟨d, f⟩, l, rfl⟩ : ∃ x l', l = x :: l' := by
      cases l with
      | nil => simp at hvalues
      | cons x l => exact ⟨x, l, rfl⟩
    simp only [map_cons, cons.injEq] at hvalues
    obtain ⟨hp, hvalues⟩ := hvalues
    simp only [Timer.value, Prod.mk.injEq] at hp
    have hnot : p ∉ ps := (nodup_cons.mp htrail.nodup).1
    obtain ⟨hd, hpos⟩ := forall_mem_cons.mp hpos
    simp only [wp_bind, wp_set, hp.1, hp.2]
    set s₁ := s.setTimer p ⟨d - 1, some f, (s.timerList p).next⟩
    have hself₁ : s₁.timerList p = ⟨d - 1, some f, (s.timerList p).next⟩ :=
      update_self ..
    have hother₁ {q : Fin timeRequests} (hq : q ≠ p) : s₁.timerList q = s.timerList q :=
      update_of_ne hq ..
    have hnext₁ : s₁.nextTimer = some p := htrail'
    rw [expire, wp_bind, wp_get]
    simp only [hnext₁, hself₁, wp_ite, wp_bind, wp_set, wp_pure]
    refine ⟨fun hdue => ?_, fun hlate => ?_⟩
    · -- the first timer runs; the one behind it is not due
      have htick : Queue.tick ((d, f) :: l) = ([f], l) := if_pos (by omega)
      set s₂ := (s₁.setTimer p ⟨d - 1, none, (s.timerList p).next⟩).setNextTimer
        (s.timerList p).next
      have hother₂ {q : Fin timeRequests} (hq : q ≠ p) : s₂.timerList q = s.timerList q :=
        (update_of_ne hq ..).trans (hother₁ hq)
      have hlinked {q : Fin timeRequests} (hq : q ∈ ps) : s₂.timerList q = s.timerList q :=
        hother₂ (ne_of_mem_of_not_mem hq hnot)
      have hholds : Holds { s₂ with ran := s₂.ran ++ [f] } ps l := by
        refine ⟨hrest.congr fun q hq => by rw [hlinked hq], ?_, fun q hq => ?_, hpos⟩
        · exact (map_congr_left fun q hq => by rw [hlinked hq]).trans hvalues
        · by_cases hqp : q = p
          · rw [hqp, show s₂.timerList p = _ from update_self ..]
          · rw [hother₂ hqp]
            exact hfree q (by simp [hqp, hq])
      rw [callFn, wp_modify]
      refine hholds.wp_expire (hQ ps _ ?_ ?_)
      · rw [htick]
        exact hholds
      · rw [htick]
        rfl
    · have htick : Queue.tick ((d, f) :: l) = ([], (d - 1, f) :: l) := if_neg (by omega)
      refine hQ (p :: ps) s₁ ?_ ?_
      · rw [htick]
        refine ⟨?_, ?_, fun q hq => ?_, forall_mem_cons.mpr ⟨by omega, hpos⟩⟩
        · rw [hnext₁]
          refine .cons ?_
          rw [hself₁]
          exact hrest.congr fun q hq => by rw [hother₁ (ne_of_mem_of_not_mem hq hnot)]
        · rw [map_cons, map_cons, hself₁, ← hvalues]
          refine congrArg _ (map_congr_left fun q hq => ?_)
          rw [hother₁ (ne_of_mem_of_not_mem hq hnot)]
        · rw [hother₁ (ne_of_not_mem_cons hq)]
          exact hfree q hq
      · rw [htick, append_nil]
        rfl

end

/-! ### Runs -/

inductive Event (φ : Type)
  | add (jiffies : ℤ) (fn : Option φ)
  | tick

/-- What an event calls; the result is the callbacks that were run in it. -/
def Event.run (e : Event φ) : TimerM φ (List φ) := do
  modify fun s => { s with ran := [] }
  match e with
  | .add j fn => addTimer j fn
  | .tick => doTimer
  return (← get).ran

def run : List (Event φ) → TimerM φ (List (List φ))
  | [] => pure []
  | e :: es => do
      let out ← e.run
      let outs ← run es
      return out :: outs

/-- No timer is pending. -/
def start : State φ := ⟨fun _ => ⟨0, none, none⟩, none, []⟩

/-! ### The clock

What timers are for: a request for `j` ticks is due at the `j`-th tick after
it. -/

structure Clock (φ : Type) where
  now : ℤ
  /-- The outstanding timers with the ticks at which they are due. -/
  pending : List (ℤ × φ)

/-- The callbacks that are due in an event, and the clock after it. -/
def Clock.step (c : Clock φ) : Event φ → List φ × Clock φ
  | .add _ none => ([], c)
  | .add j (some f) =>
    if j ≤ 0 then ([f], c) else ([], ⟨c.now, c.pending ++ [(c.now + j, f)]⟩)
  | .tick =>
    ((c.pending.filter fun x => x.1 = c.now + 1).map Prod.snd,
      ⟨c.now + 1, c.pending.filter fun x => x.1 ≠ c.now + 1⟩)

def Clock.run : Clock φ → List (Event φ) → List (List φ)
  | _, [] => []
  | c, e :: es => (c.step e).1 :: Clock.run (c.step e).2 es

/-- `P` holds of every event of the run and the clock before it. -/
def Clock.Always (P : Clock φ → Event φ → Prop) : Clock φ → List (Event φ) → Prop
  | _, [] => True
  | c, e :: es => P c e ∧ Clock.Always P (c.step e).2 es

/-- At most `TIME_REQUESTS` timers are outstanding. -/
def Room (c : Clock φ) (e : Event φ) : Prop :=
  ∀ j f, e = .add j (some f) → 0 < j → c.pending.length < timeRequests

/-- A request is due after all that are outstanding. -/
def InOrder (c : Clock φ) (e : Event φ) : Prop :=
  ∀ j f, e = .add j (some f) → 0 < j → ∀ x ∈ c.pending, x.1 < c.now + j

/-- In each event the callbacks that are due are run, each once, and no others. -/
def Accurate (s : State φ) (c : Clock φ) (es : List (Event φ)) : Prop :=
  wp (run es) (fun outs _ => List.Forall₂ List.Perm outs (c.run es)) (fun _ _ => False) s

/-! ### The queue and the clock -/

/-- The ticks at which the queue runs its timers. -/
def Queue.times (now : ℤ) : Queue φ → List (ℤ × φ)
  | [] => []
  | (d, f) :: l => (now + d, f) :: Queue.times (now + d) l

def Queue.total (l : Queue φ) : ℤ := (l.map Prod.fst).sum

/-- The queue is the clock's. -/
def Exact (s : State φ) (c : Clock φ) : Prop :=
  ∃ ps l, Holds s ps l ∧ c.pending = Queue.times c.now l

section

variable {s : State φ} {c : Clock φ} {l : Queue φ} {now j : ℤ} {f : φ} {e : Event φ}
  {es : List (Event φ)}

theorem Queue.lt_of_mem_times (hl : ∀ x ∈ l, 0 < x.1) : ∀ x ∈ times now l, now < x.1 := by
  induction l generalizing now with
  | nil => simp [times]
  | cons y l ih =>
    obtain ⟨d, g⟩ := y
    obtain ⟨hd, hl⟩ := forall_mem_cons.mp hl
    simp only at hd
    refine forall_mem_cons.mpr ⟨by simp only; omega, fun x hx => ?_⟩
    have hx := ih hl x hx
    omega

theorem Queue.length_times (now : ℤ) (l : Queue φ) : (times now l).length = l.length := by
  induction l generalizing now with
  | nil => rfl
  | cons y l ih => rw [times, length_cons, ih, length_cons]

/-- A request that is due last goes to the end. -/
theorem Queue.times_insert (hj : ∀ x ∈ times now l, x.1 < now + j) :
    times now (insert j f l) = times now l ++ [(now + j, f)] := by
  induction l generalizing now j with
  | nil => rfl
  | cons y l ih =>
    obtain ⟨d, g⟩ := y
    obtain ⟨hd, hl⟩ := forall_mem_cons.mp hj
    have hlt : d < j := by simpa using hd
    have hsum : now + d + (j - d) = now + j := by omega
    rw [insert, if_pos hlt, times, ih (by rwa [hsum]), hsum]
    rfl

/-- The request pushes back what is behind it. -/
theorem Queue.total_lt_insert (hj : 0 < j) (l : Queue φ) : l.total < (insert j f l).total := by
  induction l generalizing j with
  | nil => simpa [insert, total] using hj
  | cons y l ih =>
    obtain ⟨d, g⟩ := y
    rw [insert]
    split
    · rename_i hlt
      have hrest := ih (j := j - d) (by omega)
      simp only [total, map_cons, sum_cons] at hrest ⊢
      omega
    · simp only [total, map_cons, sum_cons]
      omega

theorem Queue.le_total_of_mem_times (hl : ∀ x ∈ l, 0 < x.1) :
    ∀ x ∈ times now l, x.1 ≤ now + l.total := by
  induction l generalizing now with
  | nil => simp [times]
  | cons y l ih =>
    obtain ⟨d, g⟩ := y
    obtain ⟨hd, hl⟩ := forall_mem_cons.mp hl
    have htotal : total ((d, g) :: l) = d + total l := rfl
    have hnonneg : 0 ≤ total l := sum_nonneg fun x hx => by
      obtain ⟨y, hy, rfl⟩ := mem_map.mp hx
      exact (hl y hy).le
    refine forall_mem_cons.mpr ⟨?_, fun x hx => ?_⟩
    · simp only [htotal]
      omega
    · have hx := ih hl x hx
      omega

/-- The last timer runs when all differences have passed. -/
theorem Queue.exists_mem_times (now : ℤ) (hl : l ≠ []) : ∃ f, (now + l.total, f) ∈ times now l := by
  induction l generalizing now with
  | nil => exact absurd rfl hl
  | cons y l ih =>
    obtain ⟨d, g⟩ := y
    have htotal : total ((d, g) :: l) = d + total l := rfl
    by_cases hnil : l = []
    · subst hnil
      exact ⟨g, by simp [times, total]⟩
    · obtain ⟨f, hf⟩ := ih (now + d) hnil
      refine ⟨f, mem_cons_of_mem _ ?_⟩
      rwa [htotal, ← add_assoc]

/-- The clock that a queue is exact for. -/
theorem Holds.exact {ps : List (Fin timeRequests)} (h : Holds s ps l) (now : ℤ) :
    Exact s ⟨now, Queue.times now l⟩ :=
  ⟨ps, l, h, rfl⟩

theorem Holds.setRan {ps : List (Fin timeRequests)} (h : Holds s ps l) (ran : List φ) :
    Holds { s with ran := ran } ps l :=
  ⟨h.trail, h.values, h.free, h.positive⟩

theorem exact_start : Exact (start : State φ) ⟨0, []⟩ :=
  ⟨[], [], ⟨.nil, rfl, fun _ _ => rfl, by simp⟩, rfl⟩

/-- A tick of the queue is a tick of its clock. -/
theorem Queue.step_tick (hl : ∀ x ∈ l, 0 < x.1) : Clock.step ⟨now, times now l⟩ .tick =
      (l.tick.1, ⟨now + 1, times (now + 1) l.tick.2⟩) := by
  cases l with
  | nil => rfl
  | cons y l =>
    obtain ⟨d, f⟩ := y
    obtain ⟨hd, hl⟩ := forall_mem_cons.mp hl
    simp only at hd
    have hlater (t : ℤ) (ht : now + 1 ≤ t) : ∀ x ∈ times t l, x.1 ≠ now + 1 := by
      intro x hx
      have hlt := lt_of_mem_times hl x hx
      omega
    have hnone (t : ℤ) (ht : now + 1 ≤ t) : (times t l).filter (fun x => x.1 = now + 1) = [] := by
      simpa using hlater t ht
    have hall (t : ℤ) (ht : now + 1 ≤ t) :
        (times t l).filter (fun x => x.1 ≠ now + 1) = times t l := by
      simpa using hlater t ht
    by_cases hdue : d ≤ 1
    · obtain rfl : d = 1 := by omega
      rw [tick, if_pos hdue, Clock.step, times]
      simp only
      rw [filter_cons_of_pos (by simp), filter_cons_of_neg (by simp), hnone _ le_rfl, hall _ le_rfl]
      rfl
    · have hsum : now + 1 + (d - 1) = now + d := by omega
      have hne : now + d ≠ now + 1 := by omega
      rw [tick, if_neg hdue, Clock.step, times, times, hsum]
      simp only
      rw [filter_cons_of_neg (by simpa using hne), filter_cons_of_pos (by simpa using hne),
        hnone _ (by omega), hall _ (by omega)]
      rfl

/-- A request that waits. -/
theorem Holds.wp_run_add {ps : List (Fin timeRequests)} (h : Holds s ps l) (hj : 0 < j)
    (hroom : l.length < timeRequests) : wp (Event.add j (some f)).run (fun out s' => out = [] ∧
      ∃ ps', Holds s' ps' (Queue.insert j f l)) (fun _ _ => False) s := by
  rw [Event.run, wp_bind, wp_modify, wp_bind]
  refine (h.setRan []).wp_addTimer hj hroom fun ps' s' hs' hran => ?_
  rw [wp_bind, wp_get, wp_pure]
  exact ⟨hran, ps', hs'⟩

theorem Exact.step (h : Exact s c) (hroom : Room c e) (horder : InOrder c e) :
    wp e.run (fun out s' => out.Perm (c.step e).1 ∧ Exact s' (c.step e).2) (fun _ _ => False) s := by
  obtain ⟨ps, l, hholds, hpending⟩ := h
  obtain ⟨now, pending⟩ := c
  obtain rfl : pending = Queue.times now l := hpending
  have hreset := hholds.setRan []
  cases e with
  | tick =>
    rw [Event.run, wp_bind, wp_modify, wp_bind]
    refine hreset.wp_doTimer fun ps' s' hs' hran => ?_
    rw [wp_bind, wp_get, wp_pure, hran, Queue.step_tick hholds.positive]
    exact ⟨.refl _, ps', _, hs', rfl⟩
  | add j fn =>
    cases fn with
    | none =>
      simp only [Event.run, addTimer, Option.isNone_none, if_true, wp_bind, wp_modify, wp_pure,
        wp_get]
      exact ⟨.refl _, ps, l, hreset, rfl⟩
    | some f =>
      by_cases hj : j ≤ 0
      · have hstep : Clock.step ⟨now, Queue.times now l⟩ (.add j (some f)) =
            ([f], ⟨now, Queue.times now l⟩) := if_pos hj
        simp only [Event.run, addTimer, Option.isNone_some, Bool.false_eq_true, if_false, hj,
          if_true, callFn, wp_bind, wp_modify, wp_pure, wp_get]
        rw [hstep]
        exact ⟨.refl _, ps, l, hholds.setRan [f], rfl⟩
      · have hpos : 0 < j := not_le.mp hj
        have hstep : Clock.step ⟨now, Queue.times now l⟩ (.add j (some f)) =
            ([], ⟨now, Queue.times now l ++ [(now + j, f)]⟩) := if_neg hj
        have hlength : l.length < timeRequests := by
          have hlt := hroom j f rfl hpos
          rwa [Queue.length_times] at hlt
        refine (hholds.wp_run_add hpos hlength).imp ?_
        rintro out s' ⟨rfl, ps', hs'⟩
        rw [hstep]
        exact ⟨.refl _, ps', _, hs', (Queue.times_insert (horder j f rfl hpos)).symm⟩

theorem accurate_cons : Accurate s c (e :: es) ↔ wp e.run (fun out s' => out.Perm (c.step e).1 ∧
      Accurate s' (c.step e).2 es) (fun _ _ => False) s := by
  have hrest (out : List φ) (s' : State φ) :
      wp (run es) (fun outs _ => List.Forall₂ List.Perm (out :: outs) (c.run (e :: es)))
          (fun _ _ => False) s' ↔ out.Perm (c.step e).1 ∧ Accurate s' (c.step e).2 es := by
    unfold Accurate wp
    cases run es s' with
    | ok outs s'' => exact forall₂_cons
    | error _ _ => simp
  rw [Accurate, run, wp_bind]
  simp only [wp_bind, wp_pure, hrest]

/-- As long as nothing is added, an exact queue runs each callback when it is due. -/
theorem Exact.accurate_ticks (h : Exact s c) (n : ℕ) : Accurate s c (replicate n .tick) := by
  induction n generalizing s c with
  | zero => exact wp_pure.mpr .nil
  | succ n ih =>
    rw [replicate_succ, accurate_cons]
    refine (h.step (by rintro _ _ ⟨⟩) (by rintro _ _ ⟨⟩)).imp ?_
    rintro out s' ⟨hperm, hexact⟩
    exact ⟨hperm, ih hexact⟩

/-- Two clocks that a queue is accurate for, while only ticks come, have as many
timers due at each of them. -/
theorem length_due_eq {c₁ c₂ : Clock φ} (hnow : c₁.now = c₂.now)
    (h₁ : ∀ n, Accurate s c₁ (replicate n .tick)) (h₂ : ∀ n, Accurate s c₂ (replicate n .tick))
    (k : ℕ) : (c₁.pending.filter fun x => x.1 = c₁.now + (k + 1)).length =
      (c₂.pending.filter fun x => x.1 = c₂.now + (k + 1)).length := by
  induction k generalizing s c₁ c₂ with
  | zero =>
    have hout₁ := accurate_cons.mp (h₁ 1)
    have hout₂ := accurate_cons.mp (h₂ 1)
    cases hrun : Event.run .tick s with
    | error e s' => exact ((wp_of_error hrun).mp hout₁).elim
    | ok out s' =>
      have hlen₁ := ((wp_of_ok hrun).mp hout₁).1.length_eq
      have hlen₂ := ((wp_of_ok hrun).mp hout₂).1.length_eq
      simpa [Clock.step] using hlen₁.symm.trans hlen₂
  | succ k ih =>
    cases hrun : Event.run .tick s with
    | error e s' => exact ((wp_of_error hrun).mp (accurate_cons.mp (h₁ 1))).elim
    | ok out s' =>
      have hstep (c : Clock φ) : ((c.step .tick).2.pending.filter fun x =>
          x.1 = (c.step .tick).2.now + (k + 1)).length =
            (c.pending.filter fun x => x.1 = c.now + ((k + 1 : ℕ) + 1)).length := by
        rw [Clock.step, filter_filter]
        refine congrArg length (filter_congr fun x _ => ?_)
        simp only [Bool.and_eq_decide, decide_eq_true_eq, decide_eq_decide, ne_eq]
        omega
      rw [← hstep c₁, ← hstep c₂]
      refine ih (s := s') (congrArg (· + 1) hnow) (fun n => ?_) fun n => ?_
      · exact ((wp_of_ok hrun).mp (accurate_cons.mp (h₁ (n + 1)))).2
      · exact ((wp_of_ok hrun).mp (accurate_cons.mp (h₂ (n + 1)))).2

/-- A request that is not due last makes the timer behind it late. -/
theorem Exact.not_accurate (h : Exact s c) (hj : 0 < j) (hroom : c.pending.length < timeRequests)
    {x : ℤ × φ} (hx : x ∈ c.pending) (hlate : c.now + j ≤ x.1) :
    ¬ ∀ n, Accurate s c (.add j (some f) :: replicate n .tick) := by
  intro hacc
  obtain ⟨ps, l, hholds, hpending⟩ := h
  obtain ⟨now, pending⟩ := c
  obtain rfl : pending = Queue.times now l := hpending
  change now + j ≤ x.1 at hlate
  have hwp := hholds.wp_run_add (f := f) hj (by rwa [Queue.length_times] at hroom)
  cases hrun : (Event.add j (some f)).run s with
  | error e s' => exact ((wp_of_error hrun).mp hwp).elim
  | ok out s' =>
    obtain ⟨-, ps', hs'⟩ := (wp_of_ok hrun).mp hwp
    set l' := Queue.insert j f l with hl'
    have hc' (n : ℕ) : Accurate s' ⟨now, Queue.times now l ++ [(now + j, f)]⟩
        (replicate n .tick) := by
      have hrest := ((wp_of_ok hrun).mp (accurate_cons.mp (hacc n))).2
      rwa [Clock.step, if_neg (not_le.mpr hj)] at hrest
    -- the last timer of the queue runs after all that are outstanding
    have hx' := Queue.le_total_of_mem_times hholds.positive x hx
    have hlt : Queue.total l < Queue.total l' := Queue.total_lt_insert hj l
    obtain ⟨k, hk⟩ : ∃ k : ℕ, Queue.total l' = k + 1 := ⟨(Queue.total l' - 1).toNat, by omega⟩
    have hnil : l' ≠ [] := by
      intro hnil
      have hlen := Queue.length_insert j f l
      rw [← hl', hnil] at hlen
      simp at hlen
    obtain ⟨g, hg⟩ := Queue.exists_mem_times now hnil
    have hc (n : ℕ) : Accurate s' ⟨now, Queue.times now l'⟩ (replicate n .tick) :=
      (hs'.exact now).accurate_ticks n
    have hnow : (Clock.mk now (Queue.times now l')).now =
      (Clock.mk now (Queue.times now l ++ [(now + j, f)])).now := rfl
    have heq := length_due_eq hnow hc hc' k
    have hnone : (Queue.times now l ++ [(now + j, f)]).filter (fun x => x.1 = now + (k + 1)) =
        [] := by
      refine filter_eq_nil_iff.mpr fun y hy => ?_
      rw [decide_eq_true_eq, ← hk]
      rcases mem_append.mp hy with hy | hy
      · have hy := Queue.le_total_of_mem_times hholds.positive y hy
        omega
      · rw [mem_singleton.mp hy]
        simp only
        omega
    simp only [hnone, length_nil, length_eq_zero_iff, filter_eq_nil_iff, decide_eq_true_eq] at heq
    exact heq _ hg (by rw [hk])

theorem Exact.accurate_iff (h : Exact s c) (hroom : c.Always Room es) :
    (∀ p, p <+: es → ∀ n, Accurate s c (p ++ replicate n .tick)) ↔ c.Always InOrder es := by
  induction es generalizing s c with
  | nil =>
    refine iff_of_true (fun p hp n => ?_) trivial
    rw [prefix_nil.mp hp]
    exact h.accurate_ticks n
  | cons e es ih =>
    obtain ⟨hfits, hroom⟩ := hroom
    constructor
    · intro hacc
      have horder : InOrder c e := by
        rintro j f rfl hj x hx
        by_contra hlate
        exact h.not_accurate hj (hfits j f rfl hj) hx (not_lt.mp hlate)
          fun n => hacc [.add j (some f)] (by simp) n
      refine ⟨horder, ?_⟩
      have hstep := h.step hfits horder
      cases hrun : e.run s with
      | error _ s' => exact ((wp_of_error hrun).mp hstep).elim
      | ok out s' =>
        refine (ih ((wp_of_ok hrun).mp hstep).2 hroom).mp fun p hp n => ?_
        have hcons := hacc (e :: p) (cons_prefix_cons.mpr ⟨rfl, hp⟩) n
        exact ((wp_of_ok hrun).mp (accurate_cons.mp hcons)).2
    · rintro ⟨horder, hrest⟩ p hp n
      cases p with
      | nil => exact h.accurate_ticks n
      | cons e' p =>
        obtain ⟨rfl, hp'⟩ := cons_prefix_cons.mp hp
        rw [cons_append, accurate_cons]
        refine (h.step hfits horder).imp ?_
        rintro out s' ⟨hperm, hexact⟩
        exact ⟨hperm, (ih hexact hroom).mpr hrest p hp' n⟩

end

/-- For every sequence of requests and ticks with at most `TIME_REQUESTS` timers
outstanding: at every point of it, and with any number of further ticks, each
callback is run exactly once and in exactly the tick it was asked for, if and
only if each request is due later than all that are outstanding when it is
made. -/
theorem timers_accurate_iff (es : List (Event φ)) (hroom : Clock.Always Room ⟨0, []⟩ es) :
    (∀ p, p <+: es → ∀ n, Accurate start ⟨0, []⟩ (p ++ replicate n .tick)) ↔
      Clock.Always InOrder ⟨0, []⟩ es :=
  exact_start.accurate_iff hroom

/-- Timer 0 is asked for 5 ticks and then timer 1 for 3: timer 0 runs in the
eighth tick. -/
theorem second_timer_delays_first : Clock.Always Room ⟨0, []⟩ [.add 5 (some 0), .add 3 (some 1)] ∧
    (run ([.add 5 (some 0), .add 3 (some 1)] ++ replicate 8 .tick)).run' (start : State ℕ) =
      some [[], [], [], [], [1], [], [], [], [], [0]] ∧
    Clock.run ⟨0, []⟩ ([.add 5 (some 0), .add 3 (some 1)] ++ replicate 8 .tick) =
      [[], [], [], [], [1], [], [0], [], [], []] := by
  refine ⟨⟨?_, ?_, trivial⟩, by decide +kernel, by decide⟩
  · rintro j f ⟨⟩ -
    decide
  · rintro j f ⟨⟩ -
    decide

/-- Asked for in the order they are due, both are on time. -/
theorem timers_in_order_accurate : Clock.Always Room ⟨0, []⟩ [.add 3 (some 0), .add 5 (some 1)] ∧
    Accurate start ⟨0, []⟩
      ([.add 3 (some 0), .add 5 (some 1)] ++ replicate 6 (.tick : Event ℕ)) := by
  have hroom : Clock.Always Room ⟨0, []⟩ [.add 3 (some 0), .add 5 (some (1 : ℕ))] := by
    refine ⟨?_, ?_, trivial⟩ <;> rintro j f ⟨⟩ - <;> decide
  refine ⟨hroom, (timers_accurate_iff _ hroom).mpr ?_ _ (prefix_refl _) 6⟩
  refine ⟨?_, ?_, trivial⟩ <;> rintro j f ⟨⟩ - <;> decide

end LinuxRv.Timers
