import LinuxRv.Proc.ExecImage

/-!
The tables of a program (`create_tables` in `fs/exec.c`).

Behind the point of no return the pointers to the strings are written below
them, in the address space of the new program. The strings are found again by
their zero bytes, so every pointer leads to the string it is for.
-/

namespace LinuxRv.Proc

open ByteMemory Prog Fs Minix Mm PageArea BitVec List UserView

/-! ### Pointers -/

/-- The addresses of strings that lie one behind the other from `p` on, and the
null pointer behind them. -/
def pointersFrom (p : Word) : List (List Byte) → List Word
  | [] => [0]
  | str :: strs => p :: pointersFrom (p + .ofNat 32 (str.length + 1)) strs

/-- The address `n` words below the strings. -/
def belowStrings (p : Word) (n : ℕ) : Word := (p &&& 0xfffffffc) - 4 * .ofNat 32 n

/-- The number of arguments and the addresses of the two tables. -/
def tableHead (p : Word) (args envs : List (List Byte)) : List Word :=
  [.ofNat 32 args.length, belowStrings p (args.length + envs.length + 2),
    belowStrings p (envs.length + 1)]

/-- What `create_tables` writes. -/
def tableWords (p : Word) (args envs : List (List Byte)) : List Word :=
  tableHead p args envs ++ pointersFrom p args ++
    pointersFrom (p + .ofNat 32 (stringBytes args).length) envs

theorem length_pointersFrom (p : Word) (strs : List (List Byte)) :
    (pointersFrom p strs).length = strs.length + 1 := by
  induction strs generalizing p with
  | nil => rfl
  | cons str strs ih => rw [pointersFrom, length_cons, ih, length_cons]

theorem length_tableHead_append (p : Word) (args envs : List (List Byte)) :
    (tableHead p args envs ++ pointersFrom p args).length = args.length + 4 := by
  rw [length_append, length_pointersFrom, tableHead]
  simp only [length_cons, length_nil]
  omega

theorem length_tableWords (p : Word) (args envs : List (List Byte)) :
    (tableWords p args envs).length = args.length + envs.length + 5 := by
  rw [tableWords, length_append, length_tableHead_append, length_pointersFrom]
  omega

/-- Every string has its zero byte. -/
theorem length_le_stringBytes (strs : List (List Byte)) :
    strs.length ≤ (stringBytes strs).length := by
  induction strs with
  | nil => exact le_rfl
  | cons str strs ih =>
    rw [stringBytes] at ih ⊢
    rw [flatMap_cons, length_append, length_append, length_cons, length_singleton]
    omega

/-! ### Writing the tables -/

/-- A task has an address space of its own, and sees `V` in it. -/
def HasView (main : MainMemory) (j : Fin nrTasks) (d : Word) (V : UserView) (m : Mm.State) : Prop :=
  OwnSpace main j d m.mem ∧ userByte m.mem d = V

section

variable {main : MainMemory} {j : Fin nrTasks} {c : Current} {V : UserView} {m : Mm.State} {s₁ : Fs}
  {p a table v : Word} {n : ℕ} {strs : List (List Byte)} {ws : List Word}

theorem HasView.wp_putFsLong (h : HasView main j c.pgdir V m) (ha : a.toNat % 4 = 0) :
    wp (Minix.liftMm (Mm.putFsLong v c.pgdir a))
      (fun _ s' => V a ≠ none ∧ ∃ m', s' = { s₁ with mm := m' } ∧
        HasView main j c.pgdir (V.putWords a [v]) m')
      (fun e _ => e = .exit 11 ∧ V a = none) { s₁ with mm := m } := by
  obtain ⟨hown, rfl⟩ := h
  rw [Minix.wp_liftMm]
  refine (hown.wp_putFsLong ha).mono (fun _ m' ⟨hne, hown', hview⟩ => ?_) fun e _ ⟨he, hnone⟩ => ?_
  · exact ⟨hne, m', rfl, hown', hview⟩
  · rw [he]
    exact ⟨rfl, hnone⟩

theorem stringBytes_cons (str : List Byte) (strs : List (List Byte)) :
    stringBytes (str :: strs) = (str ++ [0]) ++ stringBytes strs :=
  flatMap_cons ..

/-- One of the two loops, which ends the task if its table is not mapped. -/
theorem wp_putPointers_view (halign : table.toNat % 4 = 0)
    (hbelow : 4 * (strs.length + 1) ≤ (p - table).toNat)
    (hfit : (p - table).toNat + (stringBytes strs).length ≤ 2 ^ 32) (hnot : ∀ str ∈ strs, 0 ∉ str)
    (hbytes : BytesAt V p (stringBytes strs)) (h : HasView main j c.pgdir V m) :
    wp (putPointers c strs.length p table)
      (fun p' s' => p' = p + .ofNat 32 (stringBytes strs).length ∧
        V.Mapped table (strs.length + 1) ∧
        ∃ m', s' = { s₁ with mm := m' } ∧
          HasView main j c.pgdir (V.putWords table (pointersFrom p strs)) m')
      (fun e _ => e = .exit 11 ∧ ¬ V.Mapped table (strs.length + 1)) { s₁ with mm := m } := by
  induction strs generalizing p table V m with
  | nil =>
    refine wp_bind.mpr ((h.wp_putFsLong halign).mono (fun _ s' ⟨hne, h'⟩ => ?_)
      fun e _ ⟨he, hnone⟩ => ⟨he, fun hmap => ?_⟩)
    · exact wp_pure.mpr ⟨(BitVec.add_zero p).symm, mapped_one.mpr hne, h'⟩
    · exact mapped_one.mp hmap hnone
  | cons str strs ih =>
    have hfour : table + 4 = table + 4 * .ofNat 32 [p].length := rfl
    have hlen : (str ++ [(0 : Byte)]).length = str.length + 1 := by simp
    have hsplit : V.Mapped table (strs.length + 1 + 1) ↔
        V table ≠ none ∧ V.Mapped (table + 4) (strs.length + 1) := by
      rw [Nat.add_comm _ 1, mapped_add, mapped_one]
      rfl
    rw [length_cons] at hbelow
    rw [stringBytes_cons] at hbytes hfit
    -- the strings are behind the word that is written
    have hkept := @bytesAt_putWords V table [p] p _ hbytes (by rw [length_singleton]; omega) hfit
    obtain ⟨hfirst, hrest⟩ := bytesAt_append.mp hkept
    rw [length_append, hlen] at hfit
    rw [hlen] at hrest
    have hdist : (p + .ofNat 32 (str.length + 1) - (table + 4)).toNat =
        (p - table).toNat + (str.length + 1) - 4 := by
      have hlt := (p - table).isLt
      rw [← sub_sub, add_sub_right, toNat_sub, toNat_add, toNat_ofNat,
        show (4 : Word).toNat = 4 from rfl]
      omega
    refine wp_bind.mpr ((h.wp_putFsLong halign).mono (fun _ s' ⟨hne, m', hs', h'⟩ => ?_)
      fun e _ ⟨he, hnone⟩ => ⟨he, fun hmap => (hsplit.mp hmap).1 hnone⟩)
    have hstr : StringAt (V.putWords table [p]) p str := ⟨hnot str (.head _), hfirst⟩
    subst hs'
    have hview : userByte m'.mem c.pgdir = V.putWords table [p] := h'.2
    rw [← hview] at hstr
    have hfuel : str.length < maxString := by
      rw [maxString]
      exact hstr.length_lt
    rw [wp_bind, wp_strLen_string (s := { s₁ with mm := m' }) hstr hfuel, Nat.zero_add, hlen]
    have hmapped : (V.putWords table [p]).Mapped (table + 4) (strs.length + 1) ↔
        V.Mapped (table + 4) (strs.length + 1) := by
      rw [hfour]
      refine mapped_putWords ?_
      rw [length_singleton]
      omega
    refine (ih ?_ (by omega) (by omega) (fun str' h => hnot str' (.tail _ h)) hrest h').mono
      (fun p' s' ⟨hp', hmap, hshow⟩ => ⟨?_, ?_, ?_⟩) fun e _ ⟨he, hmap⟩ => ⟨he, fun hall => ?_⟩
    · rw [hfour]
      exact toNat_pointer_mod halign _
    · rw [hp', stringBytes_cons, length_append, hlen, ofNat_add _ (stringBytes _).length,
        BitVec.add_assoc]
    · exact hsplit.mpr ⟨hne, hmapped.mp hmap⟩
    · rwa [hfour, putWords_append] at hshow
      rw [length_pointersFrom, length_singleton]
      omega
    · exact hmap (hmapped.mpr (hsplit.mp hall).2)

theorem belowStrings_sub (p : Word) (n k : ℕ) :
    belowStrings p n - 4 * .ofNat 32 k = belowStrings p (n + k) := by
  rw [belowStrings, belowStrings, sub_sub, ofNat_add, mul_add]

theorem belowStrings_add (p : Word) (n k : ℕ) :
    belowStrings p (n + k) + 4 * .ofNat 32 k = belowStrings p n := by
  rw [← belowStrings_sub, sub_add_cancel]

/-- The second table is behind the first one. -/
theorem belowStrings_envp (p : Word) (args envs : List (List Byte)) :
    belowStrings p (args.length + envs.length + 5) +
      4 * .ofNat 32 (tableHead p args envs ++ pointersFrom p args).length =
        belowStrings p (envs.length + 1) := by
  rw [length_tableHead_append, ← belowStrings_add p (envs.length + 1) (args.length + 4)]
  congr 2
  omega

theorem toNat_belowStrings (h : n ≤ p.toNat / 4) :
    (belowStrings p n).toNat = 4 * (p.toNat / 4 - n) := by
  have hp := p.isLt
  have hand : (p &&& 0xfffffffc).toNat = 4 * (p.toNat / 4) :=
    toNat_and_high (n := 2) (k := 30) rfl rfl
  rw [belowStrings, toNat_sub, hand, toNat_mul, toNat_ofNat, show (4 : Word).toNat = 4 from rfl]
  omega

/-- The tables are mapped if each of their parts is. -/
theorem mapped_tables (p : Word) (a e : ℕ) : V.Mapped (belowStrings p (a + e + 5)) (a + e + 5) ↔
    V (belowStrings p (a + e + 5)) ≠ none ∧ V (belowStrings p (a + e + 4)) ≠ none ∧
      V (belowStrings p (a + e + 3)) ≠ none ∧ V.Mapped (belowStrings p (a + e + 2)) (a + 1) ∧
      V.Mapped (belowStrings p (e + 1)) (e + 1) := by
  have hsum : a + e + 5 = 1 + (1 + (1 + ((a + 1) + (e + 1)))) := by omega
  have htable : a + e + 2 = e + 1 + (a + 1) := by omega
  nth_rewrite 2 [hsum]
  rw [mapped_add, belowStrings_add p (a + e + 4) 1, mapped_add, belowStrings_add p (a + e + 3) 1,
    mapped_add, belowStrings_add p (a + e + 2) 1, mapped_add, htable, belowStrings_add p (e + 1) (a
    + 1), mapped_one, mapped_one, mapped_one]

/-- A word before others. -/
theorem HasView.wp_putBelow (h : HasView main j c.pgdir (V.putWords (belowStrings p n) ws) m)
    (hn : n < p.toNat / 4) (hws : ws.length ≤ n) :
    wp (Minix.liftMm (Mm.putFsLong v c.pgdir (belowStrings p (n + 1))))
      (fun _ s' => V (belowStrings p (n + 1)) ≠ none ∧ ∃ m', s' = { s₁ with mm := m' } ∧
        HasView main j c.pgdir (V.putWords (belowStrings p (n + 1)) (v :: ws)) m')
      (fun e _ => e = .exit 11 ∧ V (belowStrings p (n + 1)) = none) { s₁ with mm := m } := by
  have hp := p.isLt
  have haddr : belowStrings p n = belowStrings p (n + 1) + 4 * .ofNat 32 [v].length :=
    (belowStrings_add p n 1).symm
  have halign : (belowStrings p (n + 1)).toNat % 4 = 0 := by
    rw [toNat_belowStrings hn]
    omega
  -- the word is not one of the others
  have hkept : V.putWords (belowStrings p n) ws (belowStrings p (n + 1)) =
      V (belowStrings p (n + 1)) := by
    refine putWords_of_le ?_
    rw [toNat_sub, toNat_belowStrings hn, toNat_belowStrings (Nat.le_of_succ_le hn)]
    omega
  refine (h.wp_putFsLong halign).mono (fun _ s' ⟨hne, m', hs, h'⟩ => ⟨hkept ▸ hne, m', hs, ?_⟩)
    fun e _ ⟨he, hnone⟩ => ⟨he, hkept ▸ hnone⟩
  rwa [haddr, putWords_before] at h'
  rw [length_singleton]
  omega

/-- Pointers behind other words. -/
theorem HasView.wp_putPointers (h : HasView main j c.pgdir (V.putWords a ws) m)
    (ha : a.toNat % 4 = 0) (htable : a + 4 * .ofNat 32 ws.length = table)
    (hbelow : 4 * (ws.length + strs.length + 1) ≤ (p - a).toNat)
    (hfit : (p - a).toNat + (stringBytes strs).length ≤ 2 ^ 32) (hnot : ∀ str ∈ strs, 0 ∉ str)
    (hbytes : BytesAt V p (stringBytes strs)) : wp (putPointers c strs.length p table)
      (fun p' s' => p' = p + .ofNat 32 (stringBytes strs).length ∧
        V.Mapped table (strs.length + 1) ∧
        ∃ m', s' = { s₁ with mm := m' } ∧
          HasView main j c.pgdir (V.putWords a (ws ++ pointersFrom p strs)) m')
      (fun e _ => e = .exit 11 ∧ ¬ V.Mapped table (strs.length + 1)) { s₁ with mm := m } := by
  subst htable
  have hlt := (p - a).isLt
  have hdist := toNat_sub_words (show 4 * ws.length ≤ (p - a).toNat by omega)
  have hmapped : (V.putWords a ws).Mapped (a + 4 * .ofNat 32 ws.length) (strs.length + 1) ↔
      V.Mapped (a + 4 * .ofNat 32 ws.length) (strs.length + 1) :=
    mapped_putWords (by omega)
  have halign := toNat_pointer_mod ha ws.length
  refine (wp_putPointers_view halign (by omega) (by omega) hnot (bytesAt_putWords hbytes (by omega)
    hfit) h).mono (fun p' s' ⟨hp', hmap, m', hs, h'⟩ => ⟨hp', hmapped.mp hmap, m', hs, ?_⟩) fun e _
    ⟨he, hmap⟩ => ⟨he, fun hall => hmap (hmapped.mpr hall)⟩
  rwa [putWords_append] at h'
  rw [length_pointersFrom]
  omega

theorem wp_createTables_view {args envs : List (List Byte)}
    (hroom : args.length + envs.length + 5 ≤ p.toNat / 4)
    (hfit : p.toNat + (stringBytes args ++ stringBytes envs).length < 2 ^ 32)
    (hnot : ∀ str ∈ args ++ envs, 0 ∉ str)
    (hbytes : BytesAt V p (stringBytes args ++ stringBytes envs)) (h : HasView main j c.pgdir V m) :
    wp (createTables c p args.length envs.length)
      (fun sp s' => sp = belowStrings p (args.length + envs.length + 5) ∧
        V.Mapped sp (args.length + envs.length + 5) ∧
        ∃ m', s' = { s₁ with mm := m' } ∧
          HasView main j c.pgdir (V.putWords sp (tableWords p args envs)) m')
      (fun e _ => e = .exit 11 ∧ ¬ V.Mapped (belowStrings p (args.length + envs.length + 5))
        (args.length + envs.length + 5)) { s₁ with mm := m } := by
  have hlength : (stringBytes args ++ stringBytes envs).length =
      (stringBytes args).length + (stringBytes envs).length := length_append
  rw [hlength] at hfit
  have hp := p.isLt
  -- the addresses that are written
  have henvp : (p &&& 0xfffffffc) - 4 * .ofNat 32 (envs.length + 1) =
      belowStrings p (envs.length + 1) := rfl
  have hargv : belowStrings p (envs.length + 1) - 4 * .ofNat 32 (args.length + 1) =
      belowStrings p (args.length + envs.length + 2) := by
    rw [belowStrings_sub]
    congr 1
    omega
  have hfirst : belowStrings p (args.length + envs.length + 2) - 4 =
      belowStrings p (args.length + envs.length + 3) := belowStrings_sub _ _ 1
  have hsecond : belowStrings p (args.length + envs.length + 2) - 8 =
      belowStrings p (args.length + envs.length + 4) := belowStrings_sub _ _ 2
  have hthird : belowStrings p (args.length + envs.length + 2) - 12 =
      belowStrings p (args.length + envs.length + 5) := belowStrings_sub _ _ 3
  rw [createTables, henvp, hargv, hfirst, hsecond, hthird, mapped_tables]
  have h₀ : HasView main j c.pgdir
      (V.putWords (belowStrings p (args.length + envs.length + 2)) []) m := h
  refine wp_bind.mpr ((h₀.wp_putBelow (by omega) (Nat.zero_le _)).mono
    (fun _ s' ⟨hne₁, m₁, hs, h₁⟩ => ?_) fun e _ ⟨he, hnone⟩ => ⟨he, fun hall => hall.2.2.1 hnone⟩)
  subst hs
  refine wp_bind.mpr ((h₁.wp_putBelow (by omega) (by simp)).mono
    (fun _ s' ⟨hne₂, m₂, hs, h₂⟩ => ?_) fun e _ ⟨he, hnone⟩ => ⟨he, fun hall => hall.2.1 hnone⟩)
  subst hs
  refine wp_bind.mpr ((h₂.wp_putBelow (by omega) (by simp)).mono
    (fun _ s' ⟨hne₃, m₃, hs, h₃⟩ => ?_) fun e _ ⟨he, hnone⟩ => ⟨he, fun hall => hall.1 hnone⟩)
  subst hs
  -- the tables are behind the three words
  have hspNat := toNat_belowStrings hroom
  have hdist : (p - belowStrings p (args.length + envs.length + 5)).toNat =
      p.toNat - 4 * (p.toNat / 4 - (args.length + envs.length + 5)) := by
    rw [toNat_sub, hspNat]
    omega
  have hdistEnvs : (p + .ofNat 32 (stringBytes args).length -
      belowStrings p (args.length + envs.length + 5)).toNat =
      (p - belowStrings p (args.length + envs.length + 5)).toNat + (stringBytes args).length := by
    rw [add_sub_right, toNat_add, toNat_ofNat]
    omega
  obtain ⟨hbytesArgs, hbytesEnvs⟩ := bytesAt_append.mp hbytes
  have h₃' : HasView main j c.pgdir (V.putWords (belowStrings p (args.length + envs.length + 5))
      (tableHead p args envs)) m₃ := h₃
  refine wp_bind.mpr ((h₃'.wp_putPointers (by omega) (belowStrings_add p _ 3) ?_ (by omega) (fun str
    hmem => hnot str (mem_append_left _ hmem)) hbytesArgs).mono (fun p' s' ⟨hp', hmap₄, m₄, hs, h₄⟩
    => ?_) fun e _ ⟨he, hmap⟩ => ⟨he, fun hall => hmap hall.2.2.2.1⟩)
  · rw [show (tableHead p args envs).length = 3 from rfl]
    omega
  subst hs hp'
  have hlen := length_tableHead_append p args envs
  refine wp_bind.mpr ((h₄.wp_putPointers (by omega) (belowStrings_envp ..) (by omega) (by omega)
    (fun str hmem => hnot str (mem_append_right _ hmem)) hbytesEnvs).mono (fun p' s' ⟨hp', hmap₅,
    m₅, hs, h₅⟩ => ?_) fun e _ ⟨he, hmap⟩ => ⟨he, fun hall => hmap hall.2.2.2.2⟩)
  exact wp_pure.mpr ⟨rfl, (mapped_tables ..).mpr ⟨hne₃, hne₂, hne₁, hmap₄, hmap₅⟩, m₅, hs, h₅⟩

end

/-! ### What the program finds -/

/-- What `main` of a program is called with. -/
structure ArgBlock (u : UserView) (sp : Word) (args envs : List (List Byte)) : Prop where
  argc : ∃ argc : Word, WordAt u sp argc ∧ argc.toNat = args.length
  argv : ∃ argv, WordAt u (sp + 4) argv ∧ VectorAt u argv args
  envp : ∃ envp, WordAt u (sp + 8) envp ∧ VectorAt u envp envs

section

variable {u : UserView} {p table : Word} {args envs strs : List (List Byte)}

theorem VectorAt.cons {str : List Byte} (hp : p ≠ 0) (hword : WordAt u table p)
    (hstr : StringAt u p str) (h : VectorAt u (table + 4) strs) :
    VectorAt u table (str :: strs) := by
  have hnext (k : ℕ) : table + 4 + 4 * .ofNat 32 k = table + 4 * .ofNat 32 (k + 1) := by
    rw [Nat.add_comm, ofNat_add, mul_add, ← BitVec.add_assoc]
    rfl
  refine ⟨fun k hk => ?_, ?_⟩
  · cases k with
    | zero =>
      rw [show table + 4 * .ofNat 32 0 = table from BitVec.add_zero table]
      exact ⟨p, hp, hword, hstr⟩
    | succ k =>
      rw [← hnext]
      exact h.1 k (Nat.lt_of_succ_lt_succ hk)
  · rw [length_cons, ← hnext]
    exact h.2

theorem vectorAt_pointersFrom (hwords : WordsAt u table (pointersFrom p strs))
    (hbytes : BytesAt u p (stringBytes strs)) (hnot : ∀ str ∈ strs, 0 ∉ str) (hp : p ≠ 0)
    (hfit : p.toNat + (stringBytes strs).length < 2 ^ 32) : VectorAt u table strs := by
  induction strs generalizing table p with
  | nil => exact ⟨fun k hk => absurd hk (Nat.not_lt_zero k), hwords 0 Nat.one_pos⟩
  | cons str strs ih =>
    obtain ⟨hword, hrest⟩ := WordsAt.cons hwords
    have hlen : (str ++ [(0 : Byte)]).length = str.length + 1 := by simp
    rw [stringBytes_cons] at hbytes hfit
    rw [length_append, hlen] at hfit
    obtain ⟨hfirst, hbytes⟩ := bytesAt_append.mp hbytes
    rw [hlen] at hbytes
    have hnat : (p + .ofNat 32 (str.length + 1)).toNat = p.toNat + (str.length + 1) := by
      rw [toNat_add, toNat_ofNat]
      omega
    refine .cons hp hword ⟨hnot str (.head _), hfirst⟩
      (ih hrest hbytes (fun str' h => hnot str' (.tail _ h)) ?_ (by omega))
    intro h0
    rw [h0, show (0 : Word).toNat = 0 from rfl] at hnat
    omega

theorem argBlock_of_words (hfit : p.toNat + (stringBytes args ++ stringBytes envs).length < 2 ^ 32)
    (hp : p ≠ 0) (hnot : ∀ str ∈ args ++ envs, 0 ∉ str)
    (hwords : WordsAt u (belowStrings p (args.length + envs.length + 5)) (tableWords p args envs))
    (hbytes : BytesAt u p (stringBytes args ++ stringBytes envs)) :
    ArgBlock u (belowStrings p (args.length + envs.length + 5)) args envs := by
  have hpos : p.toNat ≠ 0 := fun h0 => hp (eq_of_toNat_eq h0)
  have hcount := length_le_stringBytes args
  rw [length_append] at hfit
  have hnat : (p + .ofNat 32 (stringBytes args).length).toNat =
      p.toNat + (stringBytes args).length := by
    rw [toNat_add, toNat_ofNat]
    omega
  obtain ⟨hbytesArgs, hbytesEnvs⟩ := bytesAt_append.mp hbytes
  obtain ⟨hfront, henvs⟩ := hwords.append
  rw [belowStrings_envp] at henvs
  obtain ⟨hhead, hargs⟩ := hfront.append
  obtain ⟨hargc, hrest⟩ := hhead.cons
  obtain ⟨hargv, hrest⟩ := hrest.cons
  obtain ⟨henvp, -⟩ := hrest.cons
  rw [BitVec.add_assoc] at henvp
  refine ⟨⟨_, hargc, ?_⟩, ⟨_, hargv, ?_⟩, ⟨_, henvp, ?_⟩⟩
  · rw [toNat_ofNat]
    omega
  · rw [← belowStrings_add p (args.length + envs.length + 2) 3]
    exact vectorAt_pointersFrom hargs hbytesArgs
      (fun str hmem => hnot str (mem_append_left _ hmem)) hp (by omega)
  · refine vectorAt_pointersFrom henvs hbytesEnvs
      (fun str hmem => hnot str (mem_append_right _ hmem)) (fun h0 => ?_) (by omega)
    rw [h0, show (0 : Word).toNat = 0 from rfl] at hnat
    omega

/-- The strings with the tables below them. -/
theorem argBlock_tables {V : UserView} (hroom : args.length + envs.length + 5 ≤ p.toNat / 4)
    (hfit : p.toNat + (stringBytes args ++ stringBytes envs).length < 2 ^ 32)
    (hnot : ∀ str ∈ args ++ envs, 0 ∉ str)
    (hbytes : BytesAt V p (stringBytes args ++ stringBytes envs)) :
    ArgBlock (V.putWords (belowStrings p (args.length + envs.length + 5)) (tableWords p args envs))
      (belowStrings p (args.length + envs.length + 5)) args envs := by
  have hlt := p.isLt
  have hlen := length_tableWords p args envs
  have hspNat := toNat_belowStrings hroom
  refine argBlock_of_words hfit ?_ hnot (wordsAt_putWords (by omega))
    (bytesAt_putWords hbytes ?_ ?_)
  · rintro rfl
    exact absurd hroom (by simp)
  · rw [toNat_sub, hspNat]
    omega
  · rw [toNat_sub, hspNat]
    omega

end

end LinuxRv.Proc
