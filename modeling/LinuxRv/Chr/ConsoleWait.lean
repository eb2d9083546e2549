import LinuxRv.Chr.LineEditing

/-!
The waiting loop of `tty_read`.

A reader that finds no complete line polls the console until there is one. The
loop ends on a complete line only, and `copy_to_cooked` moves nothing, not even a
newline, into a full queue: a line of 1023 characters keeps its reader waiting
for ever.
-/

namespace LinuxRv.Chr

open ByteMemory Editor Queue List

/-! ### The loop -/

/-- A reader in the loop, or behind it. -/
inductive Reader
  | waiting (tty : Tty)
  | done (tty : Tty)

/-- One round of `while (!current->signal)`, when the UART has the characters
`bytes`. `member` says whether the reader is in the group that `tty_intr` signals. -/
def Reader.round (member : Bool) : Reader → List Byte → Reader
  | .done tty, _ => .done tty
  | .waiting tty, bytes =>
    if member ∧ tty.sent ≠ 0 then .done tty
    else
      let tty := conPoll bytes tty
      if hasInput tty then .done tty else .waiting tty

def Reader.rounds (member : Bool) (batches : List (List Byte)) (r : Reader) : Reader :=
  batches.foldl (round member) r

/-- The reader gets out of the loop because there is a line, and the queue is never
full without one while it is in the loop. -/
def Released (member : Bool) (tty : Tty) (batches : List (List Byte)) : Prop :=
  (∃ tty', Reader.rounds member batches (.waiting tty) = .done tty' ∧ hasInput tty' = true) ∧
    ∀ p tty', p <+: batches → Reader.rounds member p (.waiting tty) = .waiting tty' →
      ¬ (tty'.secondary.full = true ∧ tty'.secondary.data = 0)

/-! ### The condition -/

/-- Newline, carriage return and `^D`. -/
def endsLine (c : Byte) : Bool := c = 10 || c = 13 || c = 4

/-- One of the characters ends the line before the line has 1023 characters. -/
def Arrives : List Byte → List Byte → Prop
  | _, [] => False
  | l, c :: r => l.length < 1023 ∧ (endsLine c = true ∨ Arrives (edit l c) r)

/-- What `read_q` has room for. -/
def received (batches : List (List Byte)) : List Byte := (batches.map (List.take 1023)).flatten

/-! ### The editor with bounded room -/

section

variable {l b r : List Byte} {c : Byte}

theorem terminators_edit (l : List Byte) (c : Byte) :
    terminators (edit l c) = terminators l + if endsLine c then 1 else 0 := by
  have hends : endsLine c = isTerminator (if c = 13 then 10 else c) := by
    by_cases hc : c = 13
    · rw [if_pos hc, hc]
      rfl
    · rw [if_neg hc, endsLine, isTerminator, decide_eq_false hc, Bool.or_false]
  rw [edit, hends]
  generalize (if c = 13 then (10 : Byte) else c) = c
  have hquiet (h : isTerminator c = false) (l' : List Byte) (heq : terminators l' = terminators l) :
      terminators l' = terminators l + if isTerminator c = true then 1 else 0 := by
    rw [heq, h]
    rfl
  split
  · rename_i hc
    exact hquiet (hc ▸ rfl) _ (terminators_kill l)
  · split
    · rename_i hc
      exact hquiet (by rcases hc with rfl | rfl <;> rfl) _ (terminators_erase l)
    · split
      · rename_i hc
        exact hquiet (by rcases hc with rfl | rfl | rfl | rfl <;> rfl) _ rfl
      · rw [terminators, countP_append, countP_singleton]
        rfl

theorem terminators_le_cook (l b : List Byte) : terminators l ≤ terminators (cook l b).1 := by
  induction b generalizing l with
  | nil => exact le_rfl
  | cons c b ih =>
    rw [cook]
    split
    · exact le_rfl
    · have hedit := terminators_edit l c
      have hrest := ih (edit l c)
      omega

/-- All is edited, or the line is full. -/
theorem cook_stops (l b : List Byte) : (cook l b).2 = [] ∨ (cook l b).1.length = 1023 := by
  induction b generalizing l with
  | nil => exact .inl rfl
  | cons c b ih =>
    rw [cook]
    split
    · rename_i hfull
      exact .inr hfull
    · exact ih _

theorem Arrives.nonfull (h : Arrives l r) : l.length < 1023 := by
  cases r with
  | nil => exact h.elim
  | cons c r => exact h.1

/-- A complete line is counted exactly when a character ends it in time. -/
theorem arrives_iff_cook (hline : terminators l = 0) (hlength : l.length ≤ 1023) :
    Arrives l b ↔ terminators (cook l b).1 ≠ 0 := by
  induction b generalizing l with
  | nil => exact ⟨False.elim, fun h => h hline⟩
  | cons c b ih =>
    rw [Arrives, cook]
    by_cases hfull : l.length = 1023
    · rw [if_pos hfull, hfull]
      simp [hline]
    · rw [if_neg hfull]
      have hlt : l.length < 1023 := by omega
      have hedit := terminators_edit l c
      cases hends : endsLine c with
      | true =>
        have hle := terminators_le_cook (edit l c) b
        rw [hends, if_pos rfl] at hedit
        exact ⟨fun _ => by omega, fun _ => ⟨hlt, .inl rfl⟩⟩
      | false =>
        rw [hends, hline] at hedit
        have hlength' := length_edit_le l c
        rw [← ih hedit (by omega)]
        simp [hlt]

/-- What comes later counts if the line was not ended and did not become full. -/
theorem arrives_append (hlength : l.length ≤ 1023) :
    Arrives l (b ++ r) ↔ Arrives l b ∨ (cook l b).2 = [] ∧ Arrives (cook l b).1 r := by
  induction b generalizing l with
  | nil => simp [Arrives, cook]
  | cons c b ih =>
    rw [cons_append, Arrives, Arrives, cook]
    by_cases hfull : l.length = 1023
    · rw [if_pos hfull, hfull]
      simp
    · have hedit := length_edit_le l c
      rw [if_neg hfull, ih (by omega)]
      have hlt : l.length < 1023 := by omega
      simp only [hlt, true_and, or_assoc]

end

/-! ### The console in the loop -/

section

variable {tty : Tty}

/-- `^C` and `^\`. -/
def isSignal (c : Byte) : Bool := c = 0x03 || c = 0x1c

theorem sent_killLine (fuel : ℕ) (tty : Tty) : (killLine fuel tty).sent = tty.sent := by
  induction fuel generalizing tty with
  | zero => rfl
  | succ fuel ih =>
    rw [killLine]
    split
    · rfl
    · exact ih _

theorem sent_cookChar (h : tty.termios = consoleTermios) {c : Byte} (hc : isSignal c = false) :
    (cookChar c tty).sent = tty.sent := by
  have hmap : isSignal (if c = 13 then 10 else c) = false := by
    split
    · rfl
    · exact hc
  rw [cookChar_console h]
  revert hmap
  generalize (if c = 13 then (10 : Byte) else c) = c
  intro hc
  simp only
  split_ifs with _ _ _ _ hintr hquit
  · exact sent_killLine _ _
  · rw [eraseLast]
    split <;> rfl
  · rfl
  · rfl
  · rw [hintr] at hc
    cases hc
  · rw [hquit] at hc
    cases hc
  · rfl

theorem sent_cookLoop (fuel : ℕ) (h : tty.termios = consoleTermios)
    (hquiet : ∀ c ∈ tty.readQ.toList, isSignal c = false) :
    (cookLoop fuel tty).sent = tty.sent := by
  induction fuel generalizing tty with
  | zero => rfl
  | succ fuel ih =>
    rw [cookLoop]
    split
    · rfl
    · rename_i hgo
      have hget := toList_getch (mt empty_iff.mpr (not_or.mp hgo).1)
      rw [hget, forall_mem_cons] at hquiet
      have hsame := onlySecondary_cookChar tty.readQ.getch.1 { tty with readQ := tty.readQ.getch.2 }
      rw [ih (hsame.termios.trans h) (hsame.readQ ▸ hquiet.2)]
      exact sent_cookChar (by exact h) hquiet.1

theorem sent_conPoll {bytes : List Byte} (h : tty.termios = consoleTermios)
    (hread : tty.readQ.toList = []) (hquiet : ∀ c ∈ bytes, isSignal c = false) :
    (conPoll bytes tty).sent = tty.sent := by
  rw [conPoll, foldl_receive]
  simp only
  split
  · rfl
  · refine (sent_cookLoop _ (by exact h) fun c hc => hquiet c ?_).trans rfl
    have hfill : c ∈ (tty.readQ.fill bytes).toList := hc
    rw [toList_fill, hread] at hfill
    exact mem_of_mem_take hfill

/-- The console in front of a reader that waits: all that was typed is edited, and
there is neither a line nor a full queue. -/
structure Waiting (tty : Tty) : Prop extends Sound tty where
  read : tty.readQ.toList = []
  line : terminators tty.secondary.toList = 0
  room : tty.secondary.toList.length < 1023

theorem Sound.hasInput_iff (h : Sound tty) :
    hasInput tty = true ↔ terminators tty.secondary.toList ≠ 0 := by
  have hnil : terminators tty.secondary.toList ≠ 0 → tty.secondary.toList ≠ [] := by
    rintro hline hnil
    exact hline (by rw [hnil]; rfl)
  have hcanon : tty.termios.icanon = true := by
    rw [h.termios]
    rfl
  rw [hasInput, hcanon, Bool.not_true, Bool.false_or, Bool.and_eq_true, Bool.not_eq_true',
    decide_eq_true_eq, ← h.toNat_data, Bool.eq_false_iff, ne_eq, empty_iff]
  rw [← h.toNat_data] at hnil
  have hdata : tty.secondary.data ≠ 0 ↔ tty.secondary.data.toNat ≠ 0 := by
    rw [ne_eq, ← BitVec.toNat_inj]
    rfl
  rw [hdata]
  exact ⟨And.right, fun h => ⟨hnil h, h⟩⟩

theorem Waiting.not_full (h : Waiting tty) : ¬ tty.secondary.full = true := by
  rw [full_iff]
  exact h.room.ne

/-- Nobody comes back into the loop here. -/
theorem rounds_done (member : Bool) (batches : List (List Byte)) (tty : Tty) :
    Reader.rounds member batches (.done tty) = .done tty := by
  induction batches with
  | nil => rfl
  | cons b batches ih => exact ih

section

variable {member : Bool} {b : List Byte} {batches : List (List Byte)} {tty' : Tty}

/-- The poll brings a line. -/
theorem Waiting.released_of_done (h : Waiting tty)
    (hround : Reader.round member (.waiting tty) b = .done tty') (hinput : hasInput tty' = true) :
    Released member tty (b :: batches) := by
  have hrounds (p : List (List Byte)) :
      Reader.rounds member (b :: p) (.waiting tty) = .done tty' := by
    rw [Reader.rounds, foldl_cons, hround]
    exact rounds_done member p tty'
  refine ⟨⟨tty', hrounds batches, hinput⟩, fun p tty'' hp hwait => ?_⟩
  cases p with
  | nil =>
    obtain rfl : tty = tty'' := by
      injection hwait
    exact fun hwedged => h.not_full hwedged.1
  | cons b' p =>
    obtain ⟨rfl, -⟩ := cons_prefix_cons.mp hp
    rw [hrounds] at hwait
    cases hwait

/-- The poll brings none. -/
theorem Waiting.released_of_waiting (h : Waiting tty)
    (hround : Reader.round member (.waiting tty) b = .waiting tty') :
    Released member tty (b :: batches) ↔ Released member tty' batches := by
  have hrounds (p : List (List Byte)) :
      Reader.rounds member (b :: p) (.waiting tty) = Reader.rounds member p (.waiting tty') := by
    rw [Reader.rounds, foldl_cons, hround]
    rfl
  rw [Released, Released, hrounds]
  refine and_congr_right fun _ => ⟨fun hall p t hp hwait => ?_, fun hall p t hp hwait => ?_⟩
  · exact hall (b :: p) t (cons_prefix_cons.mpr ⟨rfl, hp⟩) (by rw [hrounds, hwait])
  · cases p with
    | nil =>
      obtain rfl : tty = t := by
        injection hwait
      exact fun hwedged => h.not_full hwedged.1
    | cons b' p =>
      obtain ⟨rfl, hp'⟩ := cons_prefix_cons.mp hp
      rw [hrounds] at hwait
      exact hall p t hp' hwait

/-- A full queue without a line. -/
theorem not_released_of_full (hfull : tty.secondary.full = true)
    (hdata : tty.secondary.data = 0) : ¬ Released member tty batches := by
  intro hreleased
  exact hreleased.2 [] tty nil_prefix rfl ⟨hfull, hdata⟩

end

theorem Waiting.conPoll (h : Waiting tty) (b : List Byte) : Sound (conPoll b tty) ∧
      ((conPoll b tty).secondary.toList, (conPoll b tty).readQ.toList) =
        cook tty.secondary.toList (b.take 1023) := by
  have hpoll := h.toSound.conPoll b
  rwa [h.read, nil_append, length_nil, Nat.sub_zero] at hpoll

/-- A poll that brings no line and does not fill the queue leaves nothing in `read_q`. -/
theorem Waiting.conPoll_of_room {b : List Byte} (h : Waiting tty)
    (hline : terminators (Chr.conPoll b tty).secondary.toList = 0)
    (hroom : (Chr.conPoll b tty).secondary.toList.length ≠ 1023) : Waiting (Chr.conPoll b tty) := by
  obtain ⟨hsound, hcook⟩ := h.conPoll b
  obtain ⟨hlist, hread⟩ := Prod.mk.inj hcook
  have hall : (Chr.conPoll b tty).readQ.toList = [] := by
    rw [hread]
    exact (cook_stops _ _).resolve_right (hlist ▸ hroom)
  have hle := (Chr.conPoll b tty).secondary.chars_le
  rw [← length_toList] at hle
  exact ⟨hsound, hall, hline, by omega⟩

/-- A waiting reader gets out of the loop exactly when a character ends the line
while the queue has room. -/
theorem Waiting.released_iff (member : Bool) {batches : List (List Byte)} (h : Waiting tty)
    (hsent : tty.sent = 0) (hquiet : ∀ c ∈ batches.flatten, isSignal c = false) :
    Released member tty batches ↔ Arrives tty.secondary.toList (received batches) := by
  induction batches generalizing tty with
  | nil =>
    refine ⟨?_, False.elim⟩
    rintro ⟨⟨tty', hdone, -⟩, -⟩
    cases hdone
  | cons b batches ih =>
    rw [flatten_cons, forall_mem_append] at hquiet
    have hsent' := (sent_conPoll h.termios h.read hquiet.1).trans hsent
    have hround : Reader.round member (.waiting tty) b =
        if hasInput (Chr.conPoll b tty) then .done (Chr.conPoll b tty)
        else .waiting (Chr.conPoll b tty) := by
      rw [Reader.round, if_neg fun hsig => hsig.2 hsent]
    obtain ⟨hsound, hcook⟩ := h.conPoll b
    obtain ⟨hlist, hread⟩ := Prod.mk.inj hcook
    rw [show received (b :: batches) = b.take 1023 ++ received batches from rfl, arrives_append
      h.room.le, arrives_iff_cook h.line h.room.le, ← hlist, ← hread, ← hsound.hasInput_iff]
    by_cases hinput : hasInput (Chr.conPoll b tty) = true
    · rw [if_pos hinput] at hround
      exact ⟨fun _ => .inl hinput, fun _ => h.released_of_done hround hinput⟩
    rw [if_neg hinput] at hround
    rw [h.released_of_waiting hround, or_iff_right hinput]
    have hline : terminators (Chr.conPoll b tty).secondary.toList = 0 := by
      rwa [hsound.hasInput_iff, not_not] at hinput
    by_cases hfull : (Chr.conPoll b tty).secondary.toList.length = 1023
    · -- a full queue stays as it is
      refine iff_of_false ?_ fun harrives => harrives.2.nonfull.ne hfull
      apply not_released_of_full (full_iff.mpr hfull)
      rw [hsound.data, hline]
      rfl
    · have hwaiting := h.conPoll_of_room hline hfull
      rw [ih hwaiting hsent' hquiet.2]
      exact (and_iff_right hwaiting.read).symm

/-- Empty queues, with no signal on its way. -/
structure Idle (tty : Tty) : Prop where
  termios : tty.termios = consoleTermios
  read : tty.readQ.toList = []
  secondary : tty.secondary.toList = []
  data : tty.secondary.data = 0
  sent : tty.sent = 0

theorem Idle.waiting (h : Idle tty) : Waiting tty := by
  refine ⟨⟨h.termios, ?_⟩, h.read, ?_, ?_⟩
  · rw [h.secondary, h.data]
    rfl
  · rw [h.secondary]
    rfl
  · rw [h.secondary]
    decide

end

/-- A reader on an idle console is released exactly when a newline or `^D` comes
before the line that is typed has 1023 characters. -/
theorem reader_released_iff (member : Bool) (tty : Tty) (h : Idle tty)
    (batches : List (List Byte)) (hquiet : ∀ c ∈ batches.flatten, isSignal c = false) :
    Released member tty batches ↔ Arrives [] (received batches) := by
  rw [← h.secondary]
  exact h.waiting.released_iff member h.sent hquiet

theorem idle_console : Idle console := ⟨rfl, rfl, rfl, rfl, rfl⟩

theorem reader_released_after_line : Released true console [[0x61], [0x62, 10]] := by
  refine (reader_released_iff true console idle_console _ (by decide)).mpr ?_
  exact ⟨by decide, .inr ⟨by decide, .inr ⟨by decide, .inl rfl⟩⟩⟩

/-- A line that never ends in time. -/
theorem not_arrives_letters {n : ℕ} {l : List Byte} (h : 1023 ≤ l.length + n) (r : List Byte) :
    ¬ Arrives l (replicate n 0x61 ++ r) := by
  induction n generalizing l with
  | zero =>
    intro harrives
    have hroom := harrives.nonfull
    omega
  | succ n ih =>
    rintro ⟨-, hends | harrives⟩
    · cases hends
    · refine ih ?_ harrives
      change 1023 ≤ (l ++ [0x61]).length + n
      rw [length_append, length_singleton]
      omega

/-- A line of 1023 letters, typed one by one, and its newline: the reader waits for
ever. -/
theorem long_line_wedges_reader :
    let batches : List (List Byte) := List.replicate 1023 [0x61] ++ [[10]]
    batches.flatten.getLast? = some 10 ∧ (∀ c ∈ batches.flatten, isSignal c = false) ∧
      ¬ Released true console batches := by
  intro batches
  have hflatten : batches.flatten = List.replicate 1023 0x61 ++ [10] := by
    rw [List.flatten_append, List.flatten_replicate_singleton, List.flatten_singleton]
  have htake (c : Byte) : List.take 1023 [c] = [c] := rfl
  have hreceived : received batches = List.replicate 1023 0x61 ++ [10] := by
    rw [received, List.map_append, List.map_replicate, List.map_singleton, htake, htake, hflatten]
  have hquiet (c : Byte) (hc : c ∈ batches.flatten) : isSignal c = false := by
    rw [hflatten, List.mem_append] at hc
    rcases hc with hc | hc
    · rw [List.eq_of_mem_replicate hc]
      rfl
    · rw [List.mem_singleton.mp hc]
      rfl
  refine ⟨by rw [hflatten, List.getLast?_concat], hquiet, ?_⟩
  rw [idle_console.waiting.released_iff true rfl hquiet, hreceived]
  exact not_arrives_letters (by decide) [10]

end LinuxRv.Chr
