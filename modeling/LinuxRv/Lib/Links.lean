import Mathlib.Data.List.Rotate
import Mathlib.Data.List.Chain

/-!
Intrusive linked lists.

The nodes of an intrusive list carry their own links, so a list is two
functions `next` and `prev` on the nodes together with a head pointer; null is
`none`. `Ring next prev l` says that the nodes of `l` form a circular list in
this order and `Chain next prev head l` that they form a null-terminated list
that `head` points to. `Trail next head l` is the same for nodes with a forward
link only.

The update rules are stated for the assignments a C program makes, one field
of one node at a time, and say what the list is afterwards. A list that does
not contain the assigned nodes is left alone (`Chain.congr`).
-/

namespace LinuxRv.Links

open Function List Option

variable {α : Type} {next prev next' prev' : α → Option α} {l m l' : List α} {head : Option α}
  {a x : α}

/-- `b` comes right after `a`, and both of them say so. -/
def Link (next prev : α → Option α) (a b : α) : Prop :=
  next a = some b ∧ prev b = some a

/-- A run of linked nodes reads the forward link of all of them but the last,
and the backward link of all of them but the first. -/
theorem isChain_congr (h : l.IsChain (Link next prev)) (hn : ∀ a ∈ l.dropLast, next' a = next a)
    (hp : ∀ a ∈ l.tail, prev' a = prev a) : l.IsChain (Link next' prev') := by
  induction l with
  | nil => exact .nil
  | cons a l ih =>
    cases l with
    | nil => exact .singleton a
    | cons b l =>
      rw [isChain_cons_cons] at h ⊢
      refine ⟨⟨?_, ?_⟩, ih h.2 (fun x hx => hn x ?_) fun x hx => hp x ?_⟩
      · rw [hn a (by simp), h.1.1]
      · rw [hp b (by simp), h.1.2]
      · rw [dropLast_cons_cons]
        exact mem_cons_of_mem a hx
      · exact mem_cons_of_mem b hx

/-! ### Singly linked lists -/

/-- The nodes that are met on the way from `head` to null. -/
inductive Trail (next : α → Option α) : Option α → List α → Prop
  | nil : Trail next none []
  | cons {a : α} {l : List α} (h : Trail next (next a) l) : Trail next (some a) (a :: l)

theorem Trail.head_eq (h : Trail next head l) : head = l.head? := by
  cases h <;> rfl

theorem Trail.congr (h : Trail next head l) (hn : ∀ a ∈ l, next' a = next a) :
    Trail next' head l := by
  induction h with
  | nil => exact .nil
  | @cons a l h ih =>
    refine .cons ?_
    rw [hn a (by simp)]
    exact ih fun b hb => hn b (mem_cons_of_mem a hb)

theorem Trail.unique (h : Trail next head l) (h' : Trail next head l') : l = l' := by
  induction h generalizing l' with
  | nil => cases h'; rfl
  | cons _ ih =>
    cases h' with
    | cons h' => rw [ih h']

theorem Trail.tail (h : Trail next head (m ++ a :: l)) : Trail next (some a) (a :: l) := by
  induction m generalizing head with
  | nil =>
    cases h with
    | cons h => exact .cons h
  | cons b m ih =>
    cases h with
    | cons h => exact ih h

/-- No node is met twice: the way from it would be longer than itself. -/
theorem Trail.nodup (h : Trail next head l) : l.Nodup := by
  induction h with
  | nil => exact nodup_nil
  | @cons a l h ih =>
    refine nodup_cons.mpr ⟨fun ha => ?_, ih⟩
    obtain ⟨m, m', rfl⟩ := append_of_mem ha
    have heq := congrArg length (h.tail.unique (.cons h))
    simp only [length_cons, length_append] at heq
    omega

/-- `y->next = x->next; x->next = y` puts `y` behind `x`. -/
theorem Trail.insertAfter [DecidableEq α] {front back : List α} {y : α}
    (h : Trail next head (front ++ x :: back)) (hy : y ∉ front ++ x :: back) :
    Trail (update (update next y (next x)) x (some y)) head (front ++ x :: y :: back) := by
  have hnodup := h.nodup
  induction front generalizing head with
  | nil =>
    obtain ⟨hyx, hback⟩ := not_or.mp (mt mem_cons.mpr hy)
    cases h with
    | cons h =>
      refine .cons ?_
      rw [update_self]
      refine .cons ?_
      rw [update_of_ne hyx, update_self]
      refine h.congr fun b hb => ?_
      have hbx : b ≠ x := fun heq => (nodup_cons.mp hnodup).1 (heq ▸ hb)
      have hby : b ≠ y := fun heq => hback (heq ▸ hb)
      rw [update_of_ne hbx, update_of_ne hby]
  | cons a front ih =>
    obtain ⟨hya, hy⟩ := not_or.mp (mt mem_cons.mpr hy)
    obtain ⟨ha, hnodup⟩ := nodup_cons.mp hnodup
    cases h with
    | cons h =>
      refine .cons ?_
      have hax : a ≠ x := fun heq => ha (by simp [heq])
      rw [update_of_ne hax, update_of_ne (Ne.symm hya)]
      exact ih h hy hnodup

/-! ### Circular lists -/

/-- The nodes of `l` form a circular list in this order. -/
structure Ring (next prev : α → Option α) (l : List α) : Prop where
  nodup : l.Nodup
  /-- Consecutive nodes are linked, and the last one to the first. -/
  closed : (l ++ l.head?.toList).IsChain (Link next prev)

/-- Where a circular list starts does not matter. -/
theorem Ring.rotate_one (h : Ring next prev (a :: l)) : Ring next prev (l ++ [a]) := by
  refine ⟨nodup_append_comm.mp h.nodup, ?_⟩
  have hc := h.closed
  cases l with
  | nil => exact hc
  | cons b l =>
    simp only [cons_append, head?_cons, toList_some] at hc ⊢
    rw [isChain_cons_cons] at hc
    have hsplit : b :: (l ++ [a] ++ [b]) = (b :: (l ++ [a])) ++ [b] := rfl
    rw [hsplit, isChain_append]
    refine ⟨hc.2, .singleton b, fun x hx y hy => ?_⟩
    simp only [head?_cons, mem_def, some.injEq] at hy
    rw [← cons_append, getLast?_append] at hx
    simp only [getLast?_singleton, some_or, mem_def, some.injEq] at hx
    rw [← hx, ← hy]
    exact hc.1

theorem Ring.of_isRotated (h : Ring next prev l) (hr : l ~r l') : Ring next prev l' := by
  obtain ⟨k, rfl⟩ := hr
  induction k with
  | zero => rwa [rotate_zero]
  | succ k ih =>
    rw [← rotate_rotate]
    cases hl : l.rotate k with
    | nil => rw [hl] at ih; exact ih
    | cons a m =>
      rw [hl] at ih
      rw [rotate_cons_succ, rotate_zero]
      exact ih.rotate_one

/-- A circular list may be read from any of its nodes on. -/
theorem Ring.from (h : Ring next prev l) (ha : a ∈ l) :
    ∃ m, Ring next prev (a :: m) ∧ l ~r (a :: m) := by
  obtain ⟨l₁, l₂, rfl⟩ := append_of_mem ha
  have hr : (l₁ ++ a :: l₂) ~r (a :: (l₂ ++ l₁)) := isRotated_append
  exact ⟨l₂ ++ l₁, h.of_isRotated hr, hr⟩

/-- The same, with the chosen node last. -/
theorem Ring.upTo (h : Ring next prev l) (ha : a ∈ l) :
    ∃ m, Ring next prev (m ++ [a]) ∧ l ~r (m ++ [a]) := by
  obtain ⟨m, hm, hr⟩ := h.from ha
  exact ⟨m, hm.rotate_one, hr.trans ⟨1, by simp⟩⟩

variable [DecidableEq α]

/-- `x->prev->next = x->next; x->next->prev = x->prev` takes `x` out of a ring
of at least two nodes. -/
theorem Ring.unlink (h : Ring next prev (l ++ [x])) (hl : l ≠ []) :
    ∃ p ∈ l, ∃ q ∈ l, prev x = some p ∧ next x = some q ∧
      Ring (update next p (some q)) (update prev q (some p)) l := by
  obtain ⟨hnd, -, hx⟩ := nodup_append.mp h.nodup
  have hc := h.closed
  cases l with
  | nil => exact absurd rfl hl
  | cons q m =>
    -- the ring reads `q .. p x q`, and `m'` is all of it before `p`
    obtain ⟨m', p, hp⟩ := eq_nil_or_concat' (q :: m) |>.resolve_left hl
    have hq : ∃ r, m' ++ [p] = q :: r := ⟨m, hp.symm⟩
    simp only [cons_append, head?_cons, toList_some] at hc
    rw [← cons_append, ← cons_append, hp, append_assoc, append_assoc] at hc
    simp only [cons_append, nil_append] at hc
    rw [isChain_split, isChain_cons_cons, isChain_cons_cons] at hc
    obtain ⟨hpre, hpx, hxq, -⟩ := hc
    refine ⟨p, by rw [hp]; simp, q, by simp, hpx.2, hxq.1, hnd, ?_⟩
    simp only [head?_cons, toList_some]
    rw [hp] at hnd ⊢
    have hpm : p ∉ m' := fun hm => (nodup_append.mp hnd).2.2 p hm p (by simp) rfl
    have hqm : q ∉ (m' ++ [p]).tail := by
      obtain ⟨r, hr⟩ := hq
      rw [hr] at hnd ⊢
      exact (nodup_cons.mp hnd).1
    rw [append_assoc, singleton_append, isChain_split]
    refine ⟨isChain_congr hpre (fun a ha => ?_) fun a ha => ?_, ?_⟩
    · rw [dropLast_concat] at ha
      exact update_of_ne (ne_of_mem_of_not_mem ha hpm) _ _
    · exact update_of_ne (ne_of_mem_of_not_mem ha hqm) _ _
    · exact isChain_pair.mpr ⟨update_self .., update_self ..⟩

/-- `x->next = f; x->prev = f->prev; f->prev->next = x; f->prev = x` puts `x`
in front of `f`, that is, at the end of the ring read from `f` on. -/
theorem Ring.insert {f : α} (h : Ring next prev (f :: l)) (hx : x ∉ f :: l) :
    ∃ t ∈ f :: l, prev f = some t ∧ Ring (update (update next x (some f)) t (some x))
        (update (update prev x (some t)) f (some x)) (f :: l ++ [x]) := by
  obtain ⟨m, t, ht⟩ := eq_nil_or_concat' (f :: l) |>.resolve_left (by simp)
  have hc := h.closed
  have hnd := h.nodup
  simp only [head?_cons, toList_some] at hc
  rw [ht, append_assoc, singleton_append, isChain_split] at hc
  obtain ⟨hpre, htf⟩ := hc
  have htf := isChain_pair.mp htf
  have htl : t ∈ f :: l := by rw [ht]; simp
  have hxt : x ≠ t := fun e => hx (e ▸ htl)
  have hxf : x ≠ f := fun e => hx (by rw [e]; simp)
  refine ⟨t, htl, htf.2, ?_, ?_⟩
  · exact nodup_append.mpr ⟨hnd, nodup_singleton x, fun a ha b hb e =>
      hx (by rw [mem_singleton.mp hb] at e; exact e ▸ ha)⟩
  · simp only [cons_append, head?_cons, toList_some]
    rw [← cons_append, ← cons_append, ht]
    rw [ht] at hnd hx
    have htm : t ∉ m := fun hm => (nodup_append.mp hnd).2.2 t hm t (by simp) rfl
    have hfm : f ∉ (m ++ [t]).tail := by
      rw [← ht] at hnd ⊢
      exact (nodup_cons.mp hnd).1
    rw [append_assoc, append_assoc]
    simp only [cons_append, nil_append]
    rw [isChain_split, isChain_cons_cons]
    refine ⟨isChain_congr hpre (fun a ha => ?_) fun a ha => ?_, ⟨?_, ?_⟩, isChain_pair.mpr ⟨?_, ?_⟩⟩
    · rw [dropLast_concat] at ha
      rw [update_of_ne (ne_of_mem_of_not_mem ha htm),
        update_of_ne (ne_of_mem_of_not_mem (mem_append_left _ ha) hx)]
    · rw [update_of_ne (ne_of_mem_of_not_mem ha hfm),
        update_of_ne (ne_of_mem_of_not_mem (mem_of_mem_tail ha) hx)]
    · exact update_self ..
    · rw [update_of_ne hxf, update_self]
    · rw [update_of_ne hxt, update_self]
    · exact update_self ..

/-! ### Null-terminated lists -/

/-- The nodes of `l` form a list in this order, and `head` points to it. -/
structure Chain (next prev : α → Option α) (head : Option α) (l : List α) : Prop where
  head_eq : head = l.head?
  nodup : l.Nodup
  linked : l.IsChain (Link next prev)
  first : ∀ a ∈ l.head?, prev a = none
  last : ∀ a ∈ l.getLast?, next a = none

omit [DecidableEq α] in
theorem Chain.nil : Chain next prev none [] := by
  refine ⟨rfl, nodup_nil, .nil, ?_, ?_⟩ <;> simp

omit [DecidableEq α] in
/-- Assignments to other nodes do not touch a list. -/
theorem Chain.congr (h : Chain next prev head l) (hn : ∀ a ∈ l, next' a = next a)
    (hp : ∀ a ∈ l, prev' a = prev a) : Chain next' prev' head l where
  head_eq := h.head_eq
  nodup := h.nodup
  linked := isChain_congr h.linked (fun a ha => hn a (mem_of_mem_dropLast ha))
    fun a ha => hp a (mem_of_mem_tail ha)
  first a ha := (hp a (mem_of_head? ha)).trans (h.first a ha)
  last a ha := (hn a (mem_of_getLast? ha)).trans (h.last a ha)

omit [DecidableEq α] in
theorem Chain.next_eq (h : Chain next prev head (l ++ x :: m)) : next x = m.head? := by
  cases m with
  | nil => exact h.last x (by simp)
  | cons q m => exact ((isChain_append_cons_cons.mp h.linked).2.1).1

omit [DecidableEq α] in
theorem Chain.prev_eq (h : Chain next prev head (l ++ x :: m)) : prev x = l.getLast? := by
  rcases eq_nil_or_concat' l with rfl | ⟨l', p, rfl⟩
  · exact h.first x (by simp)
  · have hl := h.linked
    rw [append_assoc, singleton_append] at hl
    rw [getLast?_concat]
    exact ((isChain_append_cons_cons.mp hl).2.1).2

/-- Assign to the node a pointer points to, if it points to one. -/
def updateAt (f : α → Option α) (p v : Option α) : α → Option α :=
  match p with
  | some a => update f a v
  | none => f

@[simp] theorem updateAt_none (f : α → Option α) (v : Option α) : updateAt f none v = f := rfl

theorem updateAt_of_notMem {f : α → Option α} {p v : Option α} (h : a ∉ p) :
    updateAt f p v a = f a := by
  cases p with
  | none => rfl
  | some b => exact update_of_ne (fun e => h (by rw [e]; rfl)) _ _

omit [DecidableEq α] in
theorem notMem_getLast? (h : l.Nodup) (ha : a ∈ l.dropLast) : a ∉ l.getLast? := by
  rcases eq_nil_or_concat' l with rfl | ⟨m, b, rfl⟩
  · simp at ha
  · rw [dropLast_concat] at ha
    rw [getLast?_concat]
    rintro ⟨⟩
    exact (nodup_append.mp h).2.2 a ha a (by simp) rfl

omit [DecidableEq α] in
theorem notMem_head? (h : l.Nodup) (ha : a ∈ l.tail) : a ∉ l.head? := by
  cases l with
  | nil => simp
  | cons b l =>
    rintro ⟨⟩
    exact (nodup_cons.mp h).1 ha

/-- `x->next->prev = x->prev; x->prev->next = x->next`, each if there is such a
node, and the head moved on if it was `x`: `x` is taken out. -/
theorem Chain.unlink (h : Chain next prev head (l ++ x :: m)) :
    Chain (updateAt next (prev x) (next x)) (updateAt prev (next x) (prev x))
      (if head = some x then next x else head) (l ++ m) := by
  have hx := h.next_eq
  have hx' := h.prev_eq
  have hnd := h.nodup
  obtain ⟨hndl, hndm, hdis⟩ := nodup_append.mp hnd
  have hlx : ∀ a ∈ l, a ≠ x := fun a ha => hdis a ha x (by simp)
  have hmx : x ∉ m := (nodup_cons.mp hndm).1
  have hmem {a b : α} (ha : a ∈ l) (hb : b ∈ m) : a ≠ b :=
    hdis a ha b (mem_cons_of_mem x hb)
  rw [hx, hx']
  refine ⟨?_, ?_, ?_, ?_, ?_⟩
  · rw [h.head_eq]
    cases l with
    | nil => simp
    | cons a l =>
      have : a ≠ x := hlx a (by simp)
      simp [this]
  · exact nodup_append.mpr ⟨hndl, (nodup_cons.mp hndm).2, fun a ha b hb => hmem ha hb⟩
  · obtain ⟨hl, hm, -⟩ := isChain_append.mp h.linked
    rw [isChain_append]
    refine ⟨isChain_congr hl (fun a ha => ?_) fun a ha => ?_, isChain_congr (isChain_cons.mp hm).2
      (fun a ha => ?_) fun a ha => ?_, fun p hp q hq => ⟨?_, ?_⟩⟩
    · exact updateAt_of_notMem (notMem_getLast? hndl ha)
    · exact updateAt_of_notMem fun hq => hmem (mem_of_mem_tail ha) (mem_of_head? hq) rfl
    · exact updateAt_of_notMem fun hp => hmem (mem_of_getLast? hp) (mem_of_mem_dropLast ha) rfl
    · exact updateAt_of_notMem (notMem_head? (nodup_cons.mp hndm).2 ha)
    · rw [hp, hq]
      exact update_self ..
    · rw [hp, hq]
      exact update_self ..
  · intro a ha
    cases l with
    | nil =>
      rw [nil_append] at ha
      rw [ha]
      exact update_self ..
    | cons b l =>
      have hb : b = a := by simpa using ha
      rw [updateAt_of_notMem fun hq => hmem (by simp [hb]) (mem_of_head? hq) rfl]
      exact h.first a (by simp [hb])
  · intro a ha
    rcases eq_nil_or_concat' m with rfl | ⟨m', b, rfl⟩
    · rw [append_nil] at ha
      rw [ha]
      exact update_self ..
    · have hb : b = a := by simpa [← append_assoc] using ha
      rw [updateAt_of_notMem fun hp => hmem (mem_of_getLast? hp) (by simp [hb]) rfl]
      exact h.last a (by rw [← cons_append, ← append_assoc, getLast?_concat, hb]; rfl)

/-- `x->prev = NULL; x->next = head; head = x; if (x->next) x->next->prev = x`
puts `x` at the front. -/
theorem Chain.cons (h : Chain next prev head l) (hx : x ∉ l) :
    Chain (update next x head) (updateAt (update prev x none) head (some x)) (some x) (x :: l) := by
  have hne {a : α} (ha : a ∈ l) : a ≠ x := ne_of_mem_of_not_mem ha hx
  have hhead : x ∉ head := fun hm => hx (mem_of_head? (h.head_eq ▸ hm))
  refine ⟨rfl, nodup_cons.mpr ⟨hx, h.nodup⟩, isChain_cons.mpr ⟨fun q hq => ⟨?_, ?_⟩,
    isChain_congr h.linked (fun a ha => ?_) fun a ha => ?_⟩, fun a ha => ?_, fun a ha => ?_⟩
  · rw [update_self, h.head_eq]
    exact hq
  · rw [h.head_eq, hq]
    exact update_self ..
  · exact update_of_ne (hne (mem_of_mem_dropLast ha)) _ _
  · rw [updateAt_of_notMem (h.head_eq ▸ notMem_head? h.nodup ha),
      update_of_ne (hne (mem_of_mem_tail ha))]
  · obtain rfl : x = a := by simpa using ha
    rw [updateAt_of_notMem hhead, update_self]
  · cases l with
    | nil =>
      obtain rfl : x = a := by simpa using ha
      rw [update_self, h.head_eq]
      rfl
    | cons b l =>
      rw [getLast?_cons_cons] at ha
      rw [update_of_ne (hne (mem_of_getLast? ha))]
      exact h.last a ha

/-! ### Walking along a list -/

/-- `for (tmp = head; tmp; tmp = tmp->next) if (p(tmp)) return tmp;`, giving up
after `fuel` nodes. -/
def search (next : α → Option α) (p : α → Bool) : ℕ → Option α → Option (Option α)
  | _, none => some none
  | 0, some _ => none
  | fuel + 1, some a => if p a then some (some a) else search next p fuel (next a)

omit [DecidableEq α] in
/-- On a list the walk finds its first node that satisfies the test. -/
theorem Chain.search_eq (h : Chain next prev head l) (p : α → Bool) {fuel : ℕ}
    (hf : l.length ≤ fuel) : search next p fuel head = some (l.find? p) := by
  -- the walk only uses the forward links of a suffix
  suffices H : ∀ (m : List α) (fuel : ℕ), m.length ≤ fuel → m <:+ l →
      search next p fuel m.head? = some (m.find? p) by
    rw [h.head_eq]
    exact H l fuel hf (suffix_refl l)
  intro m
  induction m with
  | nil => intro fuel _ _; cases fuel <;> rfl
  | cons a m ih =>
    intro fuel hfuel hm
    obtain ⟨l', rfl⟩ := hm
    obtain ⟨fuel, rfl⟩ : ∃ k, fuel = k + 1 := ⟨fuel - 1, by simp at hfuel; omega⟩
    rw [head?_cons, search, find?_cons, h.next_eq]
    cases p a with
    | true => rfl
    | false =>
      exact ih fuel (by simpa using hfuel) ((suffix_cons a m).trans ⟨l', rfl⟩)

end LinuxRv.Links
