import LinuxRv.Proc.ExecFailure

/-!
The check of a segment in `do_execve`.

The end of a segment is computed in 32 bits, by the check as well as by
`load_segment`. An end that has wrapped around passes the check, and the loop
over the pages ends there: the segment is not loaded, or only in part.
-/

namespace LinuxRv.Proc

open ByteMemory Prog Fs Minix Mm

namespace Phdr

/-- The numbers of the pages of `[p_vaddr, p_vaddr+p_memsz)`. -/
def range (ph : Phdr) : Set ℕ :=
  {n | ∃ a, ph.vaddr.toNat ≤ a ∧ a < ph.vaddr.toNat + ph.memsz.toNat ∧ a / 4096 = n}

/-- The numbers of the pages a program can use. -/
def userPages : Set ℕ := {n | n < userLimit.toNat / 4096}

/-- `load_segment` maps nothing outside of the user range, and all pages of the
segment unless it fails; it does not fail if the file can be read and frames are
left, two for each page. -/
def Mapped (ph : Phdr) : Prop :=
  ∀ (main : MainMemory) (w₀ : World) (j : Fin nrTasks) (rd : RamDisk) (ip : Ino)
    (s₁ s : Fs) (d : Word) (own : Multiset Word) (pages : Set ℕ),
    Building main w₀ j s₁ d own pages s →
    wp (loadSegment rd ip ph d) (fun ok s' => ∃ lost pages',
      Building main w₀ j s₁ d (lost + own) pages' s' ∧ pages' ⊆ pages ∪ userPages ∧
      (ok = true → pages ∪ ph.range ⊆ pages')) (fun _ _ => True) s ∧
    ((∀ k < ph.pageCount, ph.Readable rd s ip (ph.first + .ofNat 32 (4096 * k))) →
      2 * ph.pageCount ≤ freeFrames s.mm.memMap →
      wp (loadSegment rd ip ph d) (fun ok _ => ok = true) (fun _ _ => False) s)

variable {ph : Phdr}

theorem toNat_end (h : ph.vaddr.toNat + ph.memsz.toNat < 2 ^ 32) :
    (ph.vaddr + ph.memsz).toNat = ph.vaddr.toNat + ph.memsz.toNat := by
  rw [BitVec.toNat_add, Nat.mod_eq_of_lt h]

theorem Loads.le (hload : ph.Loads) (h : ph.vaddr.toNat + ph.memsz.toNat < 2 ^ 32) :
    ph.vaddr.toNat + ph.memsz.toNat ≤ stackBase.toNat := by
  rw [← toNat_end h]
  exact hload.2.2

theorem Loads.range_subset (hload : ph.Loads) (h : ph.vaddr.toNat + ph.memsz.toNat < 2 ^ 32) :
    ph.range ⊆ ph.pages := by
  rintro n ⟨a, hlow, hhigh, rfl⟩
  have hle := hload.le h
  have hbase := toNat_stackBase
  have hadd : (ph.vaddr + ph.memsz + 0xfff).toNat = ph.vaddr.toNat + ph.memsz.toNat + 0xfff := by
    rw [BitVec.toNat_add, toNat_end h]
    exact Nat.mod_eq_of_lt (by
      show _ + 0xfff < 2 ^ 32
      omega)
  constructor
  · rw [first, toNat_page]
    omega
  · rw [last, toNat_page, hadd]
    omega

theorem Loads.pages_subset (hload : ph.Loads) : ph.pages ⊆ userPages := by
  intro n hn
  have hlast := last_le hload
  have hlt : n < ph.last.toNat / 4096 := hn.2
  have hbase := toNat_stackBase
  show n < 0x80000000 / 4096
  omega

theorem Loads.mapped (hload : ph.Loads) (h : ph.vaddr.toNat + ph.memsz.toNat < 2 ^ 32) :
    ph.Mapped := by
  intro main w₀ j rd ip s₁ s d own pages hbuild
  obtain ⟨m, rfl, hspace⟩ := hbuild
  constructor
  · refine (wp_loadSegment hload (fun _ _ _ _ => trivial) hspace).imp
      fun ok s' ⟨⟨lost, pages', hbuild', hsub, _, hall⟩, _⟩ => ?_
    refine ⟨lost, pages', hbuild', ?_, fun hok => ?_⟩
    · exact hsub.trans (Set.union_subset_union_right _ hload.pages_subset)
    · rw [(hall hok).1]
      exact Set.union_subset_union_right _ (hload.range_subset h)
  · intro hread hroom
    simp only [Readable, fileBytes_mm] at hread
    refine (wp_loadSegment hload (fun k hk hnot => ?_) hspace).imp fun ok s' h' =>
      (h'.2.room hread 0 (by rwa [Nat.zero_add])).1
    exact absurd (fun hin => (hread k hk hin).1) hnot

end Phdr

/-- What `do_execve` does with a segment. -/
theorem loadHeaders_segment {rd : RamDisk} {s : Fs} {ip : Ino} {phoff d : Word} {i n : ℕ}
    {ph : Phdr} (hph : phdrAt rd s ip phoff i = some ph) (htype : ph.type = 1)
    (hrange : FileRange (phoff + 32 * .ofNat 32 i) 32) :
    loadHeaders rd ip phoff d (n + 1) i s = (if ph.Loads then do
      if ← loadSegment rd ip ph d then loadHeaders rd ip phoff d n (i + 1)
      else return some (-enomem) else return some (-enoexec)) s := by
  have hread : readFile rd ip 32 (phoff + 32 * .ofNat 32 i) 32 s =
      .ok (fileBytes rd s ip 32 (phoff + 32 * .ofNat 32 i) 32) s := by
    exact ok_of_wp (wp_readFile (fun hnot => hnot hrange) ⟨rfl, rfl⟩)
  have hbytes : fileBytes rd s ip 32 (phoff + 32 * .ofNat 32 i) 32 =
      (true, (fileBytes rd s ip 32 (phoff + 32 * .ofNat 32 i) 32).2) ∧
      Phdr.ofBytes (fileBytes rd s ip 32 (phoff + 32 * .ofNat 32 i) 32).2 = ph := by
    rw [phdrAt] at hph
    split at hph
    · next hok => exact ⟨Prod.ext hok rfl, Option.some.inj hph⟩
    · cases hph
  obtain ⟨hok, hph⟩ := hbytes
  rw [hok] at hread
  have hbind : loadHeaders rd ip phoff d (n + 1) i s = _ := bind_of_ok hread
  rw [hbind]
  simp only [hph, htype, Bool.not_true, Bool.false_eq_true, if_false, ne_eq, not_true]
  by_cases hload : ph.Loads
  · rw [if_pos hload, if_neg]
    rintro (hout | hout)
    · exact BitVec.not_le.mpr hload.2.1 hout
    · exact BitVec.not_lt.mpr hload.2.2 hout
  · rw [if_neg hload, if_pos]
    by_contra hbounds
    rw [not_or] at hbounds
    exact hload ⟨htype, BitVec.not_le.mp hbounds.1, BitVec.not_lt.mp hbounds.2⟩

/-- The check of a segment, and the loading of what passes it, are right unless
the end of the segment wraps around and then passes. -/
theorem segment_check_iff (ph : Phdr) :
    (∀ (rd : RamDisk) (s : Fs) (ip : Ino) (phoff d : Word) (i n : ℕ),
      phdrAt rd s ip phoff i = some ph → ph.type = 1 →
      FileRange (phoff + 32 * .ofNat 32 i) 32 →
      loadHeaders rd ip phoff d (n + 1) i s = (if ph.Loads then do
        if ← loadSegment rd ip ph d then loadHeaders rd ip phoff d n (i + 1)
        else return some (-enomem) else return some (-enoexec)) s) ∧
    ((ph.Loads → ph.vaddr.toNat + ph.memsz.toNat ≤ stackBase.toNat ∧ ph.Mapped) ↔
      (ph.vaddr.toNat + ph.memsz.toNat < 2 ^ 32 ∨ ¬ ph.Loads)) := by
  refine ⟨fun rd s ip phoff d i n hph htype hrange => loadHeaders_segment hph htype hrange,
    fun h => ?_, fun h hload => ?_⟩
  · by_cases hload : ph.Loads
    · have hle := (h hload).1
      have hbase := toNat_stackBase
      exact .inl (by omega)
    · exact .inr hload
  · have hlt := h.resolve_right (not_not_intro hload)
    exact ⟨hload.le hlt, hload.mapped hlt⟩

/-- A segment of almost 4 GiB from the second page on. -/
def hugeSegment : Phdr := ⟨1, 0, 0x1000, 0, 0xfffff000⟩

/-- The segment passes the check and is not loaded. -/
theorem hugeSegment_skipped : hugeSegment.Loads ∧
    stackBase.toNat < hugeSegment.vaddr.toNat + hugeSegment.memsz.toNat ∧
    1 ∈ hugeSegment.range ∧
    ∀ (rd : RamDisk) (ip : Ino) (d : Word) (s : Fs),
      loadSegment rd ip hugeSegment d s = .ok true s :=
  ⟨by decide, by decide, ⟨0x1000, by decide, by decide, by decide⟩, fun _ _ _ _ => rfl⟩

end LinuxRv.Proc
