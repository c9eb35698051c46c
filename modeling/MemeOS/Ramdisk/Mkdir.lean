import MemeOS.Ramdisk.Create
import MemeOS.Ramdisk.Isolation

/-! What a new directory holds. -/

namespace MemeOS.Ramdisk

open Lib Stdlib

/-- If `rd_mkdir` returns 0, an entry of the parent that was empty names an inode that was empty: now a directory, and
one without entries. If there is no block for it, nothing changes. -/
def StartsEmpty (base : ℕ) (m m' : Memory) (path : CString) (r : ℤ) : Prop :=
  (r = 0 → ∃ p i k, getParentDirInode base m path.bytes (rootBlk base) = .ok (inode base p) ∧ i < 16 ∧
    m (entryOf base m p i) = 0 ∧ m'.half (entryOf base m p i + 14) = k ∧ k < 0x800 ∧
    m.word (inode base k) = inodeEmpty ∧ isDir base m' k ∧ m'.word (inode base k + offDirblock) ≠ 0 ∧
    ∀ j < 16, m' (entryOf base m' k j) = 0) ∧
  (freeBlocks base m = ∅ → r ≠ 0 ∧ m' = m)

section

variable {base i j k t : ℕ} {m m' : Memory} {path : CString} {σ σ₀ σ' : State} {r : ℤ}

lemma mkdir_fields {name : List UInt8} (hp : Placed base) (hk : k < 0x800) (hi : i ≤ 0x400) (hlen : name.length ≤ 14) :
    let m' := entered (link base (claimed base m k inodeDir) (inode base k + offDirblock) i) (rootBlk base + 16 * j) name k
    m'.word (inode base k) = inodeDir ∧ m'.word (inode base k + offDirblock) = block base i ∧
      m'.half (rootBlk base + 16 * j + 14) = k := by
  intro m'
  have hfield : ∀ o, o + 4 ≤ 64 → m'.word (inode base k + o) =
      (link base (claimed base m k inodeDir) (inode base k + offDirblock) i).word (inode base k + o) :=
    fun o ho => entered_field hlen hk ho
  refine ⟨?_, ?_, entered_half hk⟩
  · have htype : ∀ x, inode base k ≤ x → x < inode base k + 4 →
        link base (claimed base m k inodeDir) (inode base k + offDirblock) i x = claimed base m k inodeDir x := by
      intro x hx hlt
      refine link_other (by simp only [offDirblock]; omega) (fun hin => ?_) hi
      simp only [InBitmap, blkBitmap, inode] at hin hlt
      omega
    exact (hfield 0 (by decide)).trans ((Memory.SameOn.word htype).trans (claimed_type (by decide)))
  · rw [hfield _ (by decide), link, Memory.word_put, Nat.mod_eq_of_lt]
    simp only [block, rootBlk, blkBitmap, inodeArray]
    omega

lemma mkdir_startsEmpty (hm : Settled base m)
    (hc : Makes base m path → (lastName path.bytes).length ≤ 14 ∧ (freeBlocks base m).Nonempty)
    (h : rdMkdir base m (some path) = .ok (r, m')) : StartsEmpty base m m' path r := by
  obtain ⟨hr, rfl⟩ | ⟨rfl, j, hj, k, hk, b, m₁, hmakes, hslot, hempty, halloc, hfill⟩ := rdMkdir_cases hm.rooted h
  · exact ⟨fun h0 => absurd h0 hr, fun _ => ⟨hr, rfl⟩⟩
  obtain ⟨hlen, hfree⟩ := hc hmakes
  refine ⟨fun _ => ?_, fun hnone => absurd hnone hfree.ne_empty⟩
  obtain ⟨i, hi, hspec⟩ := @allocBlock_spec base (claimed base m k inodeDir) (by rwa [freeBlocks_claimed hk])
  cases hspec.symm.trans halloc
  rw [← link, fillDirent_spec hj hlen] at hfill
  cases hfill
  obtain ⟨hdir, hptr, hnum⟩ := @mkdir_fields base i j k m (lastName path.bytes) hm.placed hk (mem_freeBlocks.mp hi).1 hlen
  obtain ⟨⟨a, hpick⟩, -⟩ := hmakes
  have hentry : entryOf base m 0 j = rootBlk base + 16 * j := by rw [entryOf, hm.root.2]
  have hk0 : k ≠ 0 := by
    rintro rfl
    rw [hm.root.1] at hempty
    exact absurd hempty (by decide)
  have hne : block base i ≠ 0 := block_ne_zero hm.toSound
  refine ⟨0, j, k, (pickDirent_found hm.rooted hpick).1, hj, hentry ▸ hslot, hentry ▸ hnum, hk, hempty, hdir,
    hptr ▸ hne, fun l hl => ?_⟩
  -- in a settled disk every directory but the root is blank
  obtain h0 | ⟨i', -, -, hblk, hblank⟩ := (hm.mkdir hc h).dirs k hk hk0 hdir
  · exact absurd (hptr.symm.trans h0) hne
  · rw [entryOf, hblk]
    exact hblank _ (by omega)

theorem new_directory_empty (h0 : Initial base σ₀) (hrun : Relation.ReflTransGen (Step base (Careful base)) σ₀ σ)
    (hc : Careful base σ t (.mkdir (some path))) (h : perform base σ t (.mkdir (some path)) = .ok (r, σ')) :
    StartsEmpty base σ.mem σ'.mem path r := by
  obtain ⟨⟨r, m⟩, hmkdir, h⟩ := bind_ok h
  cases h
  exact mkdir_startsEmpty (h0.inv.run hrun).disk (hc path rfl) hmkdir

end

def dirD : CString := ⟨[delim, 100], by decide⟩

theorem new_directory_empty_after_oneByte : ∃ σ σ', performAll 0x100000 oneByte freshState = .ok σ ∧
    perform 0x100000 σ 0 (.mkdir (some dirD)) = .ok (0, σ') ∧ StartsEmpty 0x100000 σ.mem σ'.mem dirD 0 := by
  obtain ⟨σ, h, hrun, -⟩ := oneByte_run
  obtain ⟨⟨σ₁, r, σ'⟩, hboth, hfacts⟩ := exists_of_any
    (x := do
      let σ ← performAll 0x100000 oneByte freshState
      let q ← perform 0x100000 σ 0 (.mkdir (some dirD))
      return (σ, q))
    (p := fun q => decide (q.2.1 = 0) && !bit 0x100000 q.1.mem 2) (by decide +kernel)
  rw [h, ok_bind] at hboth
  obtain ⟨q, hmkdir, hboth⟩ := bind_ok hboth
  cases hboth
  simp only [Bool.and_eq_true, decide_eq_true_eq, Bool.not_eq_true'] at hfacts
  obtain ⟨rfl, hbit⟩ := hfacts
  refine ⟨σ, σ', h, hmkdir, new_directory_empty freshState_initial hrun ?_ hmkdir⟩
  rintro p hp -
  obtain rfl := Option.mem_some_iff.mp hp
  exact ⟨by decide, 2, mem_freeBlocks.mpr ⟨by decide, hbit⟩⟩

def recycling : List (ℕ × Call) :=
  [(0, .create (some fileA)), (0, .openPath (some fileA)), (0, .write 0 (some fun _ => 1) 1)] ++
    List.replicate 62 (0, .mkdir (some slashed)) ++
    [(0, .create (some fileB)), (0, .openPath (some fileB)), (0, .write 1 (some fun _ => 1) 1), (0, .close 0),
      (0, .unlink (some fileA))]

theorem new_directory_holds_data : ∃ σ σ', Initial 0x100000 freshState ∧
    performAll 0x100000 recycling freshState = .ok σ ∧
    perform 0x100000 σ 0 (.mkdir (some dirD)) = .ok (0, σ') ∧ ¬ StartsEmpty 0x100000 σ.mem σ'.mem dirD 0 := by
  obtain ⟨⟨σ, r, σ'⟩, h, hfacts⟩ := exists_of_any
    (x := do
      let σ ← performAll 0x100000 recycling freshState
      let q ← perform 0x100000 σ 0 (.mkdir (some dirD))
      return (σ, q))
    (p := fun q => decide (q.2.1 = 0) &&
      decide (getParentDirInode 0x100000 q.1.mem dirD.bytes (rootBlk 0x100000) = .ok (inode 0x100000 0)) &&
      (List.range 16).all fun i =>
        let k := q.2.2.mem.half (entryOf 0x100000 q.1.mem 0 i + 14)
        q.1.mem.word (inode 0x100000 k) ≠ inodeEmpty || q.2.2.mem (entryOf 0x100000 q.2.2.mem k 0) ≠ 0)
    (by decide +kernel)
  obtain ⟨σ₁, hbefore, h⟩ := bind_ok h
  obtain ⟨q, hmkdir, h⟩ := bind_ok h
  cases h
  simp only [Bool.and_eq_true, decide_eq_true_eq, List.all_eq_true, List.mem_range, Bool.or_eq_true] at hfacts
  obtain ⟨⟨rfl, hparent⟩, hdata⟩ := hfacts
  refine ⟨σ, σ', freshState_initial, hbefore, hmkdir, fun hempty => ?_⟩
  obtain ⟨p, i, k, hp, hi, -, rfl, -, hk, -, -, hnone⟩ := hempty.1 rfl
  obtain rfl : p = 0 := inode_inj (Except.ok.inj (hp.symm.trans hparent))
  obtain hused | hentry := hdata i hi
  · exact hused hk
  · exact hentry (hnone 0 (by decide))

end MemeOS.Ramdisk
