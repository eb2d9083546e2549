import LinuxRv.Fs.BufferCache

/-!
The structure of the buffer cache.

All of `fs/buffer.c` and the layers under it leave the links and the labels of
the buffers alone, except for the last lines of `getblk`, where a buffer is
taken off its queues, labelled anew and queued again. So the structure is
separated from the rest of the state (`Cache.shape`), the two queue operations
are proved against it once, and every other procedure only has to keep it.
-/

namespace LinuxRv.Fs

open ByteMemory Prog Links Function List Cache

variable {m : ℕ} {E : Stop → Cache m → Prop} {Q : PUnit → Cache m → Prop}

/-- The links and the labels of the buffers. -/
@[ext] structure Shape (m : ℕ) where
  dev : Buf m → Dev
  blocknr : Buf m → BlockNr
  next : Buf m → Option (Buf m)
  prev : Buf m → Option (Buf m)
  nextFree : Buf m → Option (Buf m)
  prevFree : Buf m → Option (Buf m)
  hashTable : Fin nrHash → Option (Buf m)
  freeList : Option (Buf m)

def Cache.shape (s : Cache m) : Shape m where
  dev bh := (s.buf bh).dev
  blocknr bh := (s.buf bh).blocknr
  next bh := (s.buf bh).next
  prev bh := (s.buf bh).prev
  nextFree bh := (s.buf bh).nextFree
  prevFree bh := (s.buf bh).prevFree
  hashTable := s.hashTable
  freeList := s.freeList

namespace Shape

/-- The hash queue a buffer belongs to. -/
def hash (σ : Shape m) (bh : Buf m) : Fin nrHash := hashFn (σ.dev bh) (σ.blocknr bh)

structure Ok (σ : Shape m) : Prop where
  /-- The free list is circular and visits every buffer exactly once. -/
  free : ∃ l, Ring σ.nextFree σ.prevFree l ∧ ∀ bh, bh ∈ l
  freeList : σ.freeList.isSome
  /-- Each hash queue is a doubly linked list of exactly the buffers that have
  a device and hash to it. -/
  queue : ∀ h, ∃ l, Chain σ.next σ.prev (σ.hashTable h) l ∧
    ∀ bh, bh ∈ l ↔ σ.dev bh ≠ 0 ∧ σ.hash bh = h
  /-- A buffer without a device is in no queue. -/
  loose : ∀ bh, σ.dev bh = 0 → σ.next bh = none ∧ σ.prev bh = none
  /-- There is at most one buffer for a block. -/
  unique : ∀ bh bh', σ.dev bh ≠ 0 → σ.dev bh' = σ.dev bh → σ.blocknr bh' = σ.blocknr bh → bh' = bh

/-- The hash queues hold the other buffers only. -/
structure Unhashed (σ : Shape m) (bh : Buf m) : Prop where
  queue : ∀ h, ∃ l, Chain σ.next σ.prev (σ.hashTable h) l ∧
    ∀ b, b ∈ l ↔ b ≠ bh ∧ σ.dev b ≠ 0 ∧ σ.hash b = h
  loose : ∀ b ≠ bh, σ.dev b = 0 → σ.next b = none ∧ σ.prev b = none

/-- The state between the two queue operations: `bh` is on no list. With a
single buffer there is no free list left, and its own links are the ring. -/
structure Without (σ : Shape m) (bh : Buf m) : Prop extends Unhashed σ bh where
  free :
    (∃ l, Ring σ.nextFree σ.prevFree l ∧ (∀ b, b ∈ l ↔ b ≠ bh) ∧ ∃ f ∈ l, σ.freeList = some f) ∨
    (∀ b, b = bh) ∧ σ.freeList = some bh ∧ σ.prevFree bh = some bh

/-- `remove_from_queues`, for a buffer between `p` and `q` on the free list. -/
def unlink (σ : Shape m) (bh p q : Buf m) : Shape m where
  dev := σ.dev
  blocknr := σ.blocknr
  next := updateAt σ.next (σ.prev bh) (σ.next bh)
  prev := updateAt σ.prev (σ.next bh) (σ.prev bh)
  nextFree := update σ.nextFree p (some q)
  prevFree := update σ.prevFree q (some p)
  hashTable := if σ.hashTable (σ.hash bh) = some bh then
      update σ.hashTable (σ.hash bh) (σ.next bh)
    else σ.hashTable
  freeList := if σ.freeList = some bh then some q else σ.freeList

/-- The part of `insert_into_queues` that is about the free list, with `f` its
first and `t` its last node. -/
def enqueueFree (σ : Shape m) (bh f t : Buf m) : Shape m :=
  { σ with
    nextFree := update (update σ.nextFree bh (some f)) t (some bh)
    prevFree := update (update σ.prevFree bh (some t)) f (some bh) }

/-- The part that is about the hash queues. -/
def enqueueHash (σ : Shape m) (bh : Buf m) : Shape m :=
  if σ.dev bh = 0 then
    { σ with
      next := update σ.next bh none
      prev := update σ.prev bh none }
  else
    { σ with
      next := update σ.next bh (σ.hashTable (σ.hash bh))
      prev := updateAt (update σ.prev bh none) (σ.hashTable (σ.hash bh)) (some bh)
      hashTable := update σ.hashTable (σ.hash bh) (some bh) }

/-! ### Taking a buffer off its queues -/

/-- The hash queue of a labelled buffer, split at the buffer. -/
theorem Ok.split {σ : Shape m} (h : σ.Ok) {bh : Buf m} (hdev : σ.dev bh ≠ 0) :
    ∃ l₁ l₂, Chain σ.next σ.prev (σ.hashTable (σ.hash bh)) (l₁ ++ bh :: l₂) ∧
      ∀ b, b ∈ l₁ ++ bh :: l₂ ↔ σ.dev b ≠ 0 ∧ σ.hash b = σ.hash bh := by
  obtain ⟨l, hl, hmem⟩ := h.queue (σ.hash bh)
  obtain ⟨l₁, l₂, rfl⟩ := append_of_mem ((hmem bh).mpr ⟨hdev, rfl⟩)
  exact ⟨l₁, l₂, hl, hmem⟩

/-- The hash neighbours of a buffer are labelled and in the same queue. -/
theorem Ok.next_mem {σ : Shape m} (h : σ.Ok) {bh b : Buf m} (hb : b ∈ σ.next bh) :
    σ.dev b ≠ 0 ∧ σ.hash b = σ.hash bh := by
  by_cases hdev : σ.dev bh = 0
  · rw [(h.loose bh hdev).1] at hb
    exact absurd hb (by simp)
  · obtain ⟨l₁, l₂, hl, hmem⟩ := h.split hdev
    rw [hl.next_eq] at hb
    exact (hmem b).mp (by simp [mem_of_head? hb])

theorem Ok.prev_mem {σ : Shape m} (h : σ.Ok) {bh b : Buf m} (hb : b ∈ σ.prev bh) :
    σ.dev b ≠ 0 ∧ σ.hash b = σ.hash bh := by
  by_cases hdev : σ.dev bh = 0
  · rw [(h.loose bh hdev).2] at hb
    exact absurd hb (by simp)
  · obtain ⟨l₁, l₂, hl, hmem⟩ := h.split hdev
    rw [hl.prev_eq] at hb
    exact (hmem b).mp (by simp [mem_of_getLast? hb])

/-- The free list after `unlink`, and the two neighbours it joins. -/
theorem Ok.unlink_free {σ : Shape m} (h : σ.Ok) (bh : Buf m) :
    ∃ p q, σ.prevFree bh = some p ∧ σ.nextFree bh = some q ∧
      ((∃ l, Ring (σ.unlink bh p q).nextFree (σ.unlink bh p q).prevFree l ∧
          (∀ b, b ∈ l ↔ b ≠ bh) ∧ ∃ f ∈ l, (σ.unlink bh p q).freeList = some f) ∨
        (∀ b, b = bh) ∧ (σ.unlink bh p q).freeList = some bh ∧
          (σ.unlink bh p q).prevFree bh = some bh) := by
  obtain ⟨l, hring, hall⟩ := h.free
  obtain ⟨k, hk, hrot⟩ := hring.upTo (hall bh)
  obtain ⟨f, hf⟩ := Option.isSome_iff_exists.mp h.freeList
  have hmem (b : Buf m) : b ∈ k ++ [bh] := hrot.mem_iff.mp (hall b)
  by_cases hnil : k = []
  · subst hnil
    have hone (b : Buf m) : b = bh := by simpa using hmem b
    have hself := isChain_pair.mp hk.closed
    refine ⟨bh, bh, hself.2, hself.1, .inr ⟨hone, ?_, ?_⟩⟩
    · rw [unlink, hf, hone f]
      simp
    · exact update_self ..
  · obtain ⟨p, hp, q, hq, hprev, hnext, hring'⟩ := hk.unlink hnil
    have hnot : bh ∉ k := fun hb => (nodup_append.mp hk.nodup).2.2 bh hb bh (by simp) rfl
    refine ⟨p, q, hprev, hnext, .inl ⟨k, hring', fun b => ⟨?_, fun hb => ?_⟩, ?_⟩⟩
    · exact fun hb => ne_of_mem_of_not_mem hb hnot
    · simpa [hb] using hmem b
    · by_cases hfb : f = bh
      · exact ⟨q, hq, by rw [unlink, hf, hfb]; simp⟩
      · exact ⟨f, by simpa [hfb] using hmem f, by rw [unlink, hf]; simp [hfb]⟩

theorem unlink_hashTable_self (σ : Shape m) (bh p q : Buf m) :
    (σ.unlink bh p q).hashTable (σ.hash bh) =
      if σ.hashTable (σ.hash bh) = some bh then σ.next bh else σ.hashTable (σ.hash bh) := by
  simp only [unlink]
  split
  · exact update_self ..
  · rfl

/-- The hash queues after `unlink`. -/
theorem Ok.unlink_queue {σ : Shape m} (h : σ.Ok) (bh p q : Buf m) (k : Fin nrHash) :
    ∃ l, Chain (σ.unlink bh p q).next (σ.unlink bh p q).prev ((σ.unlink bh p q).hashTable k) l ∧
      ∀ b, b ∈ l ↔ b ≠ bh ∧ σ.dev b ≠ 0 ∧ σ.hash b = k := by
  by_cases hk : σ.dev bh ≠ 0 ∧ σ.hash bh = k
  · -- its own queue loses the buffer
    obtain ⟨hdev, rfl⟩ := hk
    obtain ⟨l₁, l₂, hl, hmem⟩ := h.split hdev
    have hnd := nodup_middle.mp hl.nodup
    refine ⟨l₁ ++ l₂, ?_, fun b => ⟨fun hb => ⟨?_, (hmem b).mp ?_⟩, fun hb => ?_⟩⟩
    · rw [unlink_hashTable_self]
      exact hl.unlink
    · exact ne_of_mem_of_not_mem hb (nodup_cons.mp hnd).1
    · simp only [mem_append, mem_cons] at hb ⊢
      tauto
    · have := (hmem b).mpr hb.2
      simp only [mem_append, mem_cons, hb.1, false_or] at this ⊢
      exact this
  · -- the others do not contain it or its neighbours
    obtain ⟨l, hl, hmem⟩ := h.queue k
    have hbh : bh ∉ l := fun hb => hk ((hmem bh).mp hb)
    have hhash : (σ.unlink bh p q).hashTable k = σ.hashTable k := by
      rw [unlink]
      split
      · refine update_of_ne (fun e => ?_) _ _
        subst e
        exact hbh (mem_of_head? (by rw [← hl.head_eq]; assumption))
      · rfl
    rw [hhash]
    refine ⟨l, hl.congr (fun a ha => updateAt_of_notMem fun hp => ?_)
      (fun a ha => updateAt_of_notMem fun hq => ?_), fun b => ⟨fun hb => ⟨?_, (hmem b).mp hb⟩, ?_⟩⟩
    · have hap := h.prev_mem hp
      exact hk ⟨fun h0 => by simp [(h.loose bh h0).2] at hp, by rw [← hap.2, ((hmem a).mp ha).2]⟩
    · have haq := h.next_mem hq
      exact hk ⟨fun h0 => by simp [(h.loose bh h0).1] at hq, by rw [← haq.2, ((hmem a).mp ha).2]⟩
    · exact ne_of_mem_of_not_mem hb hbh
    · exact fun hb => (hmem b).mpr hb.2

theorem Ok.unlink {σ : Shape m} (h : σ.Ok) (bh : Buf m) :
    ∃ p q, σ.prevFree bh = some p ∧ σ.nextFree bh = some q ∧ (σ.unlink bh p q).Without bh := by
  obtain ⟨p, q, hp, hq, hfree⟩ := h.unlink_free bh
  refine ⟨p, q, hp, hq, ⟨h.unlink_queue bh p q, fun b _ hb => ?_⟩, hfree⟩
  obtain ⟨hn, hp⟩ := h.loose b hb
  refine ⟨?_, ?_⟩
  · rw [← hn]
    exact updateAt_of_notMem fun hm => (h.prev_mem hm).1 hb
  · rw [← hp]
    exact updateAt_of_notMem fun hm => (h.next_mem hm).1 hb

/-! ### Queueing it again -/

/-- While it is on no list, a buffer may be given any label. -/
theorem Without.setLabel {σ : Shape m} {bh : Buf m} (h : σ.Without bh) (dev : Dev)
    (block : BlockNr) : Without { σ with
      dev := update σ.dev bh dev, blocknr := update σ.blocknr bh block } bh := by
  refine ⟨⟨fun k => ?_, fun b hb h0 => ?_⟩, h.free⟩
  · obtain ⟨l, hl, hmem⟩ := h.queue k
    refine ⟨l, hl, fun b => (hmem b).trans (and_congr_right fun hb => ?_)⟩
    simp [hash, hb]
  · exact h.loose b hb (by simpa [hb] using h0)

section

variable (σ : Shape m) (bh : Buf m)

@[simp] theorem enqueueHash_dev : (σ.enqueueHash bh).dev = σ.dev := by
  unfold enqueueHash; split <;> rfl

@[simp] theorem enqueueHash_blocknr : (σ.enqueueHash bh).blocknr = σ.blocknr := by
  unfold enqueueHash; split <;> rfl

@[simp] theorem enqueueHash_nextFree : (σ.enqueueHash bh).nextFree = σ.nextFree := by
  unfold enqueueHash; split <;> rfl

@[simp] theorem enqueueHash_prevFree : (σ.enqueueHash bh).prevFree = σ.prevFree := by
  unfold enqueueHash; split <;> rfl

@[simp] theorem enqueueHash_freeList : (σ.enqueueHash bh).freeList = σ.freeList := by
  unfold enqueueHash; split <;> rfl

end

/-- A label no buffer has may be given to any buffer. -/
theorem Ok.unique_setLabel {σ : Shape m} (h : σ.Ok) {bh : Buf m} {dev : Dev} {block : BlockNr}
    (hnew : ∀ b, dev ≠ 0 → ¬(σ.dev b = dev ∧ σ.blocknr b = block)) (b b' : Buf m)
    (h0 : update σ.dev bh dev b ≠ 0) (hdev : update σ.dev bh dev b' = update σ.dev bh dev b)
    (hnr : update σ.blocknr bh block b' = update σ.blocknr bh block b) : b' = b := by
  by_cases hb : b = bh <;> by_cases hb' : b' = bh
  · rw [hb, hb']
  · subst hb
    rw [update_self] at h0 hdev hnr
    rw [update_of_ne hb'] at hdev hnr
    exact absurd ⟨hdev, hnr⟩ (hnew b' h0)
  · subst hb'
    rw [update_self, update_of_ne hb] at hdev hnr
    rw [update_of_ne hb] at h0
    exact absurd ⟨hdev.symm, hnr.symm⟩ (hnew b (hdev ▸ h0))
  · rw [update_of_ne hb'] at hdev hnr
    rw [update_of_ne hb] at h0 hdev hnr
    exact h.unique b b' h0 hdev hnr

theorem Without.enqueueFree {σ : Shape m} {bh : Buf m} (h : σ.Without bh) :
    ∃ f t, σ.freeList = some f ∧ σ.prevFree f = some t ∧
      ∃ l, Ring (σ.enqueueFree bh f t).nextFree (σ.enqueueFree bh f t).prevFree l ∧ ∀ b, b ∈ l := by
  rcases h.free with ⟨l, hring, hmem, f, hf, hfree⟩ | ⟨hone, hfree, hself⟩
  · obtain ⟨k, hk, hrot⟩ := hring.from hf
    have hbh : bh ∉ f :: k := fun hb => (hmem bh).mp (hrot.mem_iff.mpr hb) rfl
    obtain ⟨t, ht, hprev, hring'⟩ := hk.insert hbh
    refine ⟨f, t, hfree, hprev, f :: k ++ [bh], hring', fun b => ?_⟩
    by_cases hb : b = bh
    · simp [hb]
    · exact mem_append_left _ (hrot.mem_iff.mp ((hmem b).mpr hb))
  · refine ⟨bh, bh, hfree, hself, [bh], ⟨nodup_singleton bh, ?_⟩, fun b => ?_⟩
    · exact isChain_pair.mpr ⟨update_self .., update_self ..⟩
    · rw [hone b]
      exact mem_singleton_self bh

theorem Unhashed.enqueueHash {σ : Shape m} {bh : Buf m} (h : σ.Unhashed bh) (k : Fin nrHash) :
    ∃ l, Chain (σ.enqueueHash bh).next (σ.enqueueHash bh).prev ((σ.enqueueHash bh).hashTable k) l ∧
      ∀ b, b ∈ l ↔ σ.dev b ≠ 0 ∧ σ.hash b = k := by
  obtain ⟨l, hl, hmem⟩ := h.queue k
  have hbh : bh ∉ l := fun hb => ((hmem bh).mp hb).1 rfl
  have hne {a : Buf m} (ha : a ∈ l) : a ≠ bh := ne_of_mem_of_not_mem ha hbh
  unfold Shape.enqueueHash
  split
  next h0 =>
    refine ⟨l, hl.congr (fun a ha => update_of_ne (hne ha) _ _)
      (fun a ha => update_of_ne (hne ha) _ _), fun b => (hmem b).trans ?_⟩
    exact ⟨fun hb => hb.2, fun hb => ⟨fun e => hb.1 (e ▸ h0), hb⟩⟩
  next h0 =>
    by_cases hk : σ.hash bh = k
    · subst hk
      refine ⟨bh :: l, ?_, fun b => ?_⟩
      · simp only [update_self]
        exact hl.cons hbh
      · rw [mem_cons, hmem b]
        by_cases hb : b = bh
        · exact ⟨fun _ => ⟨hb ▸ h0, hb ▸ rfl⟩, fun _ => .inl hb⟩
        · simp [hb]
    · -- the old head of the new queue is not in this one
      obtain ⟨l', hl', hmem'⟩ := h.queue (σ.hash bh)
      have hhead {a : Buf m} (ha : a ∈ l) : a ∉ σ.hashTable (σ.hash bh) := fun hm => by
        rw [hl'.head_eq] at hm
        exact hk (((hmem' a).mp (mem_of_head? hm)).2.2.symm.trans ((hmem a).mp ha).2.2)
      refine ⟨l, ?_, fun b => (hmem b).trans ⟨fun hb => hb.2, fun hb => ⟨fun e => ?_, hb⟩⟩⟩
      · simp only [update_of_ne (Ne.symm hk)]
        exact hl.congr (fun a ha => update_of_ne (hne ha) _ _) fun a ha => by
          rw [updateAt_of_notMem (hhead ha), update_of_ne (hne ha)]
      · exact hk (e ▸ hb.2)

theorem Unhashed.loose_enqueueHash {σ : Shape m} {bh : Buf m} (h : σ.Unhashed bh) {b : Buf m}
    (hb : σ.dev b = 0) : (σ.enqueueHash bh).next b = none ∧ (σ.enqueueHash bh).prev b = none := by
  unfold Shape.enqueueHash
  by_cases hbh : b = bh
  · subst hbh
    rw [if_pos hb]
    exact ⟨update_self .., update_self ..⟩
  · obtain ⟨hn, hp⟩ := h.loose b hbh hb
    split
    · exact ⟨by simpa [update_of_ne hbh] using hn,
        by simpa [update_of_ne hbh] using hp⟩
    · obtain ⟨l, hl, hmem⟩ := h.queue (σ.hash bh)
      have hnot : b ∉ σ.hashTable (σ.hash bh) := fun hm => by
        rw [hl.head_eq] at hm
        exact ((hmem b).mp (mem_of_head? hm)).2.1 hb
      exact ⟨by simpa [update_of_ne hbh] using hn,
        by simpa [updateAt_of_notMem hnot, update_of_ne hbh] using hp⟩

/-- A buffer with a label of its own can be queued. -/
theorem Without.enqueue {σ : Shape m} {bh : Buf m} (h : σ.Without bh)
    (hu : ∀ b b', σ.dev b ≠ 0 → σ.dev b' = σ.dev b → σ.blocknr b' = σ.blocknr b → b' = b) :
    ∃ f t, σ.freeList = some f ∧ σ.prevFree f = some t ∧
      ((σ.enqueueFree bh f t).enqueueHash bh).Ok := by
  obtain ⟨f, t, hf, ht, hring⟩ := h.enqueueFree
  have h' : (σ.enqueueFree bh f t).Unhashed bh := ⟨h.queue, h.loose⟩
  refine ⟨f, t, hf, ht, ?_, ?_, fun k => ?_, fun b hb => h'.loose_enqueueHash ?_, ?_⟩
  · simpa using hring
  · simp [Shape.enqueueFree, hf]
  · simpa [hash] using h'.enqueueHash k
  · simpa using hb
  · simpa [Shape.enqueueFree] using hu

end Shape

/-! ### Assignments to a buffer head -/

/-- The fields of a buffer head that the structure is about. -/
def BufferHead.links (b : BufferHead m) :
    (Dev × BlockNr) × (Option (Buf m) × Option (Buf m)) × (Option (Buf m) × Option (Buf m)) :=
  ((b.dev, b.blocknr), (b.next, b.prev), (b.nextFree, b.prevFree))

namespace Cache

variable (s : Cache m) (bh : Buf m)

theorem shape_setBuf_eq (f : BufferHead m → BufferHead m) : (s.setBuf bh f).shape = { s.shape with
        dev := update s.shape.dev bh (f (s.buf bh)).dev
        blocknr := update s.shape.blocknr bh (f (s.buf bh)).blocknr
        next := update s.shape.next bh (f (s.buf bh)).next
        prev := update s.shape.prev bh (f (s.buf bh)).prev
        nextFree := update s.shape.nextFree bh (f (s.buf bh)).nextFree
        prevFree := update s.shape.prevFree bh (f (s.buf bh)).prevFree } := by
  ext1
  · exact comp_update BufferHead.dev s.buf bh _
  · exact comp_update BufferHead.blocknr s.buf bh _
  · exact comp_update BufferHead.next s.buf bh _
  · exact comp_update BufferHead.prev s.buf bh _
  · exact comp_update BufferHead.nextFree s.buf bh _
  · exact comp_update BufferHead.prevFree s.buf bh _
  · rfl
  · rfl

/-- An assignment to any other field does not change the structure. -/
theorem shape_setBuf {f : BufferHead m → BufferHead m}
    (h : (f (s.buf bh)).links = (s.buf bh).links) : (s.setBuf bh f).shape = s.shape := by
  simp only [BufferHead.links, Prod.mk.injEq] at h
  obtain ⟨⟨hdev, hnr⟩, ⟨hnext, hprev⟩, hnf, hpf⟩ := h
  rw [shape_setBuf_eq, hdev, hnr, hnext, hprev, hnf, hpf]
  ext1 <;> first | rfl | exact update_eq_self bh _

theorem shape_setNextFree (v : Option (Buf m)) :
    (s.setBuf bh fun c => { c with nextFree := v }).shape =
      { s.shape with nextFree := update s.shape.nextFree bh v } := by
  rw [shape_setBuf_eq]
  ext1 <;> first | rfl | exact update_eq_self bh _

theorem shape_setPrevFree (v : Option (Buf m)) :
    (s.setBuf bh fun c => { c with prevFree := v }).shape =
      { s.shape with prevFree := update s.shape.prevFree bh v } := by
  rw [shape_setBuf_eq]
  ext1 <;> first | rfl | exact update_eq_self bh _

theorem shape_setNext (v : Option (Buf m)) : (s.setBuf bh fun c => { c with next := v }).shape =
      { s.shape with next := update s.shape.next bh v } := by
  rw [shape_setBuf_eq]
  ext1 <;> first | rfl | exact update_eq_self bh _

theorem shape_setPrev (v : Option (Buf m)) : (s.setBuf bh fun c => { c with prev := v }).shape =
      { s.shape with prev := update s.shape.prev bh v } := by
  rw [shape_setBuf_eq]
  ext1 <;> first | rfl | exact update_eq_self bh _

theorem shape_setAtNext (p v : Option (Buf m)) : (s.setAt p fun c => { c with next := v }).shape =
      { s.shape with next := updateAt s.shape.next p v } := by
  cases p with
  | none => rfl
  | some bh => exact shape_setNext s bh v

theorem shape_setAtPrev (p v : Option (Buf m)) : (s.setAt p fun c => { c with prev := v }).shape =
      { s.shape with prev := updateAt s.shape.prev p v } := by
  cases p with
  | none => rfl
  | some bh => exact shape_setPrev s bh v

theorem shape_setUnhashed : (s.setBuf bh fun c => { c with prev := none, next := none }).shape =
      { s.shape with
        next := update s.shape.next bh none
        prev := update s.shape.prev bh none } := by
  rw [shape_setBuf_eq]
  ext1 <;> first | rfl | exact update_eq_self bh _

theorem shape_setLabel (dev : Dev) (block : BlockNr) :
    (s.setBuf bh fun c => { c with dev := dev, blocknr := block }).shape = { s.shape with
        dev := update s.shape.dev bh dev
        blocknr := update s.shape.blocknr bh block } := by
  rw [shape_setBuf_eq]
  ext1 <;> first | rfl | exact update_eq_self bh _

end Cache

/-- What the structure leaves out. -/
@[ext] structure Body (m : ℕ) where
  data : Buf m → Block
  uptodate : Buf m → Bool
  dirt : Buf m → Bool
  count : Buf m → Byte
  lock : Buf m → Bool
  request : Fin nrRequest → Request m
  currentRequest : Option (Fin nrRequest)
  inode : Fin nrInode → CoreInode
  super : Fin nrSuper → SuperBlock
  image : ℕ → Block
  relabelled : List (BufferHead m)
  stored : Dev → BlockNr → Block

def Cache.body (s : Cache m) : Body m where
  data bh := (s.buf bh).data
  uptodate bh := (s.buf bh).uptodate
  dirt bh := (s.buf bh).dirt
  count bh := (s.buf bh).count
  lock bh := (s.buf bh).lock
  request := s.request
  currentRequest := s.currentRequest
  inode := s.inode
  super := s.super
  image := s.image
  relabelled := s.relabelled
  stored := s.stored

namespace Cache

variable (s : Cache m) (bh : Buf m) {f : BufferHead m → BufferHead m}

theorem body_setBuf_eq (f : BufferHead m → BufferHead m) : (s.setBuf bh f).body = { s.body with
        data := update s.body.data bh (f (s.buf bh)).data
        uptodate := update s.body.uptodate bh (f (s.buf bh)).uptodate
        dirt := update s.body.dirt bh (f (s.buf bh)).dirt
        count := update s.body.count bh (f (s.buf bh)).count
        lock := update s.body.lock bh (f (s.buf bh)).lock } := by
  ext1
  · exact comp_update BufferHead.data s.buf bh _
  · exact comp_update BufferHead.uptodate s.buf bh _
  · exact comp_update BufferHead.dirt s.buf bh _
  · exact comp_update BufferHead.count s.buf bh _
  · exact comp_update BufferHead.lock s.buf bh _
  all_goals rfl

/-- An assignment to links or labels only. -/
theorem body_setBuf (h : ∀ b, ((f b).data, (f b).uptodate, (f b).dirt, (f b).count, (f b).lock) =
      (b.data, b.uptodate, b.dirt, b.count, b.lock)) : (s.setBuf bh f).body = s.body := by
  have h := h (s.buf bh)
  simp only [Prod.mk.injEq] at h
  obtain ⟨hdata, hup, hdirt, hcount, hlock⟩ := h
  rw [body_setBuf_eq, hdata, hup, hdirt, hcount, hlock]
  ext1 <;> first | rfl | exact update_eq_self bh _

theorem body_setAt (p : Option (Buf m))
    (h : ∀ b, ((f b).data, (f b).uptodate, (f b).dirt, (f b).count, (f b).lock) =
      (b.data, b.uptodate, b.dirt, b.count, b.lock)) : (s.setAt p f).body = s.body := by
  cases p with
  | none => rfl
  | some bh => exact body_setBuf s bh h

end Cache

/-! ### The queue operations of the source -/

/-- Moving a list head on if it points to `bh`. -/
theorem shape_moveHash (s : Cache m) (bh : Buf m) (k : Fin nrHash) (v : Option (Buf m)) :
    (if s.hashTable k = some bh then
        { s with hashTable := update s.hashTable k v }
      else s).shape =
      { s.shape with
        hashTable := if s.shape.hashTable k = some bh then update s.shape.hashTable k v
          else s.shape.hashTable } := by
  change _ = { s.shape with
    hashTable := if s.hashTable k = some bh then update s.hashTable k v
      else s.hashTable }
  split <;> rfl

theorem body_moveHash (s : Cache m) (bh : Buf m) (k : Fin nrHash) (v : Option (Buf m)) :
    (if s.hashTable k = some bh then
        { s with hashTable := update s.hashTable k v }
      else s).body = s.body := by
  split <;> rfl

theorem shape_moveFree (s : Cache m) (bh : Buf m) (v : Option (Buf m)) :
    (if s.freeList = some bh then { s with freeList := v } else s).shape =
      { s.shape with freeList := if s.shape.freeList = some bh then v else s.shape.freeList } := by
  change _ = { s.shape with freeList := if s.freeList = some bh then v else s.freeList }
  split <;> rfl

theorem body_moveFree (s : Cache m) (bh : Buf m) (v : Option (Buf m)) :
    (if s.freeList = some bh then { s with freeList := v } else s).body = s.body := by
  split <;> rfl

/-- `remove_from_queues` does to the structure what `Shape.unlink` says, and
nothing else. -/
theorem wp_removeFromQueues {s : Cache m} {bh p q : Buf m} (hp : s.shape.prevFree bh = some p)
    (hq : s.shape.nextFree bh = some q)
    (h : ∀ s' : Cache m, s'.shape = s.shape.unlink bh p q → s'.body = s.body → Q ⟨⟩ s') :
    wp (removeFromQueues bh) Q E s := by
  have hp : (s.buf bh).prevFree = some p := hp
  have hq : (s.buf bh).nextFree = some q := hq
  simp only [removeFromQueues, setBuf, wp_bind, wp_get, wp_modify, hp, hq]
  apply h
  · simp only [shape_moveFree, shape_setPrevFree, shape_setNextFree, shape_moveHash,
      shape_setAtNext, shape_setAtPrev]
    rfl
  · simp only [body_moveFree, body_moveHash, body_setBuf, body_setAt, implies_true]

/-- `insert_into_queues` likewise; `f` and `t` are the ends of the free list. -/
theorem wp_insertIntoQueues {s : Cache m} {bh f t : Buf m} (hf : s.shape.freeList = some f)
    (ht : s.shape.prevFree f = some t)
    (h : ∀ s' : Cache m, s'.shape = (s.shape.enqueueFree bh f t).enqueueHash bh →
      s'.body = s.body → Q ⟨⟩ s') : wp (insertIntoQueues bh) Q E s := by
  have hf : s.freeList = some f := hf
  have h₁ : ((s.setBuf bh fun c => { c with nextFree := some f }).buf f).prevFree = some t :=
    (congrArg (fun σ : Shape m => σ.prevFree f) (s.shape_setNextFree bh (some f))).trans ht
  simp only [insertIntoQueues, setBuf, wp_bind, wp_get, wp_modify, hf, h₁]
  generalize hs₂ : (s.setBuf bh fun c => { c with nextFree := some f }).setBuf bh
    (fun c => { c with prevFree := some t }) = s₂
  have hshape₂ : s₂.shape = { s.shape with
        nextFree := update s.shape.nextFree bh (some f)
        prevFree := update s.shape.prevFree bh (some t) } := by
    rw [← hs₂, shape_setPrevFree, shape_setNextFree]
  have hbody₂ : s₂.body = s.body := by
    simp only [← hs₂, body_setBuf, implies_true]
  have h₂ : (s₂.buf f).prevFree = some t := by
    change s₂.shape.prevFree f = some t
    rw [hshape₂]
    by_cases hbf : f = bh
    · rw [hbf]
      exact update_self ..
    · rw [← ht]
      exact update_of_ne hbf _ _
  simp only [h₂, wp_bind, wp_get, wp_modify]
  generalize hs₃ : ((s₂.setBuf t fun c => { c with nextFree := some bh }).setBuf f
    fun c => { c with prevFree := some bh }).setBuf bh
    (fun c => { c with prev := none, next := none }) = s₃
  have hshape₃ : s₃.shape = { s.shape.enqueueFree bh f t with
        next := update s.shape.next bh none
        prev := update s.shape.prev bh none } := by
    rw [← hs₃, shape_setUnhashed, shape_setPrevFree, shape_setNextFree, hshape₂]
    rfl
  have hbody₃ : s₃.body = s.body := by
    simp only [← hs₃, body_setBuf, implies_true, hbody₂]
  have hdev : (s₃.buf bh).dev = s.shape.dev bh :=
    congrArg (fun σ : Shape m => σ.dev bh) hshape₃
  have hnr : (s₃.buf bh).blocknr = s.shape.blocknr bh :=
    congrArg (fun σ : Shape m => σ.blocknr bh) hshape₃
  have htable : s₃.hashTable = s.shape.hashTable :=
    congrArg (fun σ : Shape m => σ.hashTable) hshape₃
  rw [hdev, hnr]
  by_cases h0 : s.shape.dev bh = 0
  · rw [if_pos h0, wp_pure]
    refine h s₃ ?_ hbody₃
    rw [hshape₃, Shape.enqueueHash, if_pos (by exact h0)]
    rfl
  · rw [if_neg h0]
    simp only [wp_bind, wp_get, wp_modify, htable]
    generalize hs₄ : s₃.setBuf bh
      (fun c => { c with next := s.shape.hashTable (hashFn (s.shape.dev bh) (s.shape.blocknr bh)) })
      = s₄
    have hshape₄ : s₄.shape = { s₃.shape with
          next := update s.shape.next bh (s.shape.hashTable (s.shape.hash bh)) } := by
      rw [← hs₄, shape_setNext, hshape₃, update_idem]
      rfl
    have hbody₄ : s₄.body = s.body := by
      rw [← hbody₃, ← hs₄]
      exact body_setBuf _ _ fun _ => rfl
    apply h
    · rw [Shape.enqueueHash, if_neg (by exact h0), shape_setAtPrev]
      change ({ s₄.shape with
        hashTable := update s₄.shape.hashTable (s.shape.hash bh) (some bh)
        prev := updateAt s₄.shape.prev (s.shape.hashTable (s.shape.hash bh)) (some bh) } : Shape m) = _
      rw [hshape₄, hshape₃]
      rfl
    · rw [body_setAt]
      · exact hbody₄
      · exact fun _ => rfl

/-- The cache after `bh` has been given to a new block. -/
structure Relabelled (s : Cache m) (bh : Buf m) (dev : Dev) (block : BlockNr) (s' : Cache m) :
    Prop where
  ok : s'.shape.Ok
  dev_eq : s'.shape.dev = update s.shape.dev bh dev
  blocknr_eq : s'.shape.blocknr = update s.shape.blocknr bh block
  body_eq : s'.body = { s.body with
      uptodate := update s.body.uptodate bh false
      dirt := update s.body.dirt bh false
      count := update s.body.count bh 1
      relabelled := s.buf bh :: s.relabelled }

theorem wp_relabel {s : Cache m} {bh : Buf m} {dev : Dev} {block : BlockNr} (hok : s.shape.Ok)
    (hnew : ∀ b, dev ≠ 0 → ¬((s.buf b).dev = dev ∧ (s.buf b).blocknr = block))
    (h : ∀ s', Relabelled s bh dev block s' → Q ⟨⟩ s') : wp (relabel bh dev block) Q E s := by
  obtain ⟨p, q, hp, hq, hw⟩ := hok.unlink bh
  unfold relabel
  simp only [wp_bind, wp_modify]
  unfold setBuf
  rw [wp_modify]
  generalize hs₁ : Cache.setBuf { s with relabelled := s.buf bh :: s.relabelled } bh
    (fun b => { b with count := 1, dirt := false, uptodate := false }) = s₁
  have hshape₁ : s₁.shape = s.shape := by
    rw [← hs₁]
    exact Cache.shape_setBuf _ _ rfl
  have hbody₁ : s₁.body = { s.body with
      uptodate := update s.body.uptodate bh false
      dirt := update s.body.dirt bh false
      count := update s.body.count bh 1
      relabelled := s.buf bh :: s.relabelled } := by
    rw [← hs₁, Cache.body_setBuf_eq]
    ext1 <;> first | rfl | exact update_eq_self bh _
  refine wp_removeFromQueues (hshape₁ ▸ hp) (hshape₁ ▸ hq) fun s₂ hshape₂ hbody₂ => ?_
  rw [wp_modify]
  generalize hs₃ : s₂.setBuf bh (fun b => { b with dev := dev, blocknr := block }) = s₃
  have hshape₃ : s₃.shape = { s.shape.unlink bh p q with
        dev := update s.shape.dev bh dev
        blocknr := update s.shape.blocknr bh block } := by
    rw [← hs₃, Cache.shape_setLabel, hshape₂, hshape₁]
    rfl
  have hbody₃ : s₃.body = s₁.body := by
    rw [← hbody₂, ← hs₃]
    exact Cache.body_setBuf _ _ fun _ => rfl
  have hw₃ : s₃.shape.Without bh := by
    rw [hshape₃]
    exact hw.setLabel dev block
  have hu : ∀ b b', s₃.shape.dev b ≠ 0 → s₃.shape.dev b' = s₃.shape.dev b →
      s₃.shape.blocknr b' = s₃.shape.blocknr b → b' = b := by
    rw [hshape₃]
    exact hok.unique_setLabel hnew
  obtain ⟨f, t, hf, ht, hok'⟩ := hw₃.enqueue hu
  refine wp_insertIntoQueues hf ht fun s' hshape hbody => h s' ⟨?_, ?_, ?_, ?_⟩
  · rwa [hshape]
  · rw [hshape, Shape.enqueueHash_dev, Shape.enqueueFree, hshape₃]
  · rw [hshape, Shape.enqueueHash_blocknr, Shape.enqueueFree, hshape₃]
  · rw [hbody, hbody₃, hbody₁]

end LinuxRv.Fs
