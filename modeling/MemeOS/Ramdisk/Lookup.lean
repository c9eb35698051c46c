import MemeOS.Lib.TailCalls
import MemeOS.Ramdisk.Paths

/-! The recursion of the path lookup in a memory all of whose bytes can be read: names without a NUL are read on behind
their entries, and directories may lead anywhere. -/

namespace MemeOS.Ramdisk

open Lib Stdlib

namespace Flat

variable (base : ℕ) (m : Memory)

def strIsPrefix : List UInt8 → ℕ → Bool
  | [], a => m a = 0
  | c :: str, a => if m a = 0 then true else if m a ≠ c then false else strIsPrefix str (a + 1)

def findPrefix (path : List UInt8) (dirBlk : ℕ) : ℕ → ℕ → Option ℕ
  | 0, _ => none
  | left + 1, i => if strIsPrefix m path (dirBlk + 16 * i) then some i else findPrefix path dirBlk left (i + 1)

def getFileInode : Option (List UInt8) × ℕ → Outcome (Option (List UInt8) × ℕ) ℕ
  | (none, _) => .returns 0
  | (some path, dirBlk) =>
    if strcmp path [delim] then .returns (inode base 0)
    else
      let path := if path.head? = some delim then path.tail else path
      match findPrefix m path dirBlk 16 0 with
      | none => .returns 0
      | some i =>
        let path := strtok path [delim]
        let num := m.half (dirBlk + 16 * i + 14)
        if m.word (inode base num) = inodeDir then .calls (path, m.word (inode base num + offDirblock))
        else .returns (inode base num)

end Flat

inductive Shorter : Option (List UInt8) → List UInt8 → Prop
  | null {path : List UInt8} : Shorter none path
  | suffix {rest path : List UInt8} : rest <:+ path → rest.length < path.length → Shorter (some rest) path

section

variable {base fuel dirBlk left i a : ℕ} {m : Memory} {str rest path : List UInt8}

lemma strtok_suffix (h : strtok str [delim] = some rest) : rest <:+ str ∧ rest.head? = some delim := by
  induction str with
  | nil => cases h
  | cons c str ih =>
    rw [strtok] at h
    split_ifs at h with hc
    · obtain rfl := Option.some.inj h
      exact ⟨List.suffix_rfl, congrArg some (List.mem_singleton.mp hc)⟩
    · exact ⟨(ih h).1.trans (List.suffix_cons c str), (ih h).2⟩

lemma shorter_strtok : Shorter (strtok (if path.head? = some delim then path.tail else path) [delim]) path := by
  cases hrest : strtok (if path.head? = some delim then path.tail else path) [delim] with
  | none => exact .null
  | some rest =>
    obtain ⟨hsuffix, hhead⟩ := strtok_suffix hrest
    by_cases hlead : path.head? = some delim
    · rw [if_pos hlead] at hsuffix
      obtain ⟨tail, rfl⟩ := List.head?_eq_some_iff.mp hlead
      exact .suffix (hsuffix.trans (List.tail_suffix _)) (Nat.lt_succ_of_le hsuffix.length_le)
    · rw [if_neg hlead] at hsuffix
      refine .suffix hsuffix (lt_of_le_of_ne hsuffix.length_le fun hlen => hlead ?_)
      rw [← hsuffix.eq_of_length hlen, hhead]

lemma Flat.calls_shorter {path path' : Option (List UInt8)} {dirBlk' : ℕ}
    (h : Flat.getFileInode base m (path, dirBlk) = .calls (path', dirBlk')) : ∃ str, path = some str ∧ Shorter path' str := by
  cases path with
  | none => cases h
  | some str =>
    rw [Flat.getFileInode] at h
    dsimp only at h
    by_cases hroot : strcmp str [delim]
    · rw [if_pos hroot] at h
      cases h
    · rw [if_neg hroot] at h
      split at h
      · cases h
      · split at h
        · cases h
          exact ⟨str, rfl, shorter_strtok⟩
        · cases h

def remaining (s : Option (List UInt8) × ℕ) : ℕ := s.1.elim 0 fun str => str.length + 1

lemma Flat.calls_remaining {s s' : Option (List UInt8) × ℕ} (h : Flat.getFileInode base m s = .calls s') :
    remaining s' < remaining s := by
  obtain ⟨path, dirBlk⟩ := s
  obtain ⟨str, rfl, hshort⟩ := Flat.calls_shorter h
  rw [remaining, remaining]
  cases hshort' : s'.1 with
  | none => exact Nat.succ_pos _
  | some rest =>
    rw [hshort'] at hshort
    cases hshort with
    | suffix _ hlen => exact Nat.succ_lt_succ hlen

lemma strIsPrefix_flat : Within (strIsPrefix base m str a) (Flat.strIsPrefix m str a) := by
  induction str generalizing a with
  | nil => exact Region.within_byte.bind (.ok _)
  | cons c str ih =>
    refine Region.within_byte.bind ?_
    rw [Flat.strIsPrefix]
    by_cases hend : m a = 0
    · rw [if_pos hend, if_pos hend]
      exact .ok true
    by_cases hc : m a ≠ c
    · rw [if_neg hend, if_neg hend, if_pos hc, if_pos hc]
      exact .ok false
    · rw [if_neg hend, if_neg hend, if_neg hc, if_neg hc]
      exact ih

lemma findPrefix_flat : Within (findPrefix base m path dirBlk left i) (Flat.findPrefix m path dirBlk left i) := by
  induction left generalizing i with
  | zero => exact .ok none
  | succ left ih =>
    refine strIsPrefix_flat.bind ?_
    rw [Flat.findPrefix]
    by_cases hmatch : Flat.strIsPrefix m path (dirBlk + 16 * i)
    · rw [if_pos hmatch, if_pos hmatch]
      exact .ok (some i)
    · rw [if_neg hmatch, if_neg hmatch]
      exact ih

lemma lookup_flat {v : ℕ} (hrest : ∀ s, Flat.getFileInode base m (some path, dirBlk) = .calls s →
    Within (lookup base m fuel s.1 s.2) v) (hret : ∀ w, Flat.getFileInode base m (some path, dirBlk) = .returns w → w = v) :
    Within (lookup base m (fuel + 1) (some path) dirBlk) v := by
  rw [Flat.getFileInode] at hrest hret
  rw [lookup]
  by_cases hroot : strcmp path [delim]
  · rw [if_pos hroot] at hret ⊢
    exact .inl (congrArg _ (hret _ rfl))
  rw [if_neg hroot] at hrest hret ⊢
  dsimp only at hrest hret ⊢
  refine findPrefix_flat.bind ?_
  cases hfind : Flat.findPrefix m (if path.head? = some delim then path.tail else path) dirBlk 16 0 with
  | none =>
    rw [hfind] at hret
    exact .inl (congrArg _ (hret _ rfl))
  | some i =>
    rw [hfind] at hrest hret
    refine Region.within_half.bind (Region.within_word.bind ?_)
    dsimp only at hrest hret
    by_cases hdir : m.word (inode base (m.half (dirBlk + 16 * i + 14))) = inodeDir
    · rw [if_pos hdir] at hrest ⊢
      exact Region.within_word.bind (hrest _ rfl)
    · rw [if_neg hdir] at hret ⊢
      exact .inl (congrArg _ (hret _ rfl))

lemma lookup_ends {s : Option (List UInt8) × ℕ} {v : ℕ} (h : Ends (Flat.getFileInode base m) s v)
    (hfuel : remaining s ≤ fuel) : Within (lookup base m fuel s.1 s.2) v := by
  induction h generalizing fuel with
  | @returns s v hs =>
    obtain ⟨path, dirBlk⟩ := s
    cases path with
    | none =>
      cases hs
      cases fuel <;> exact .ok 0
    | some path =>
      obtain ⟨fuel, rfl⟩ := Nat.exists_eq_add_one_of_ne_zero (Nat.ne_of_gt (lt_of_lt_of_le (Nat.succ_pos _) hfuel))
      exact lookup_flat (fun s' hs' => by cases hs.symm.trans hs') fun w hw => Outcome.returns.inj (hw.symm.trans hs)
  | @calls s s' v hs _ ih =>
    obtain ⟨path, dirBlk⟩ := s
    obtain ⟨path, rfl, -⟩ := @Flat.calls_shorter base dirBlk m path s'.1 s'.2 hs
    obtain ⟨fuel, rfl⟩ := Nat.exists_eq_add_one_of_ne_zero (Nat.ne_of_gt (lt_of_lt_of_le (Nat.succ_pos _) hfuel))
    refine lookup_flat (fun t ht => ?_) fun w hw => by cases hs.symm.trans hw
    obtain rfl := Outcome.calls.inj (hs.symm.trans ht)
    exact ih (Nat.le_of_lt_succ (lt_of_lt_of_le (Flat.calls_remaining hs) hfuel))

end

theorem lookup_terminates (base : ℕ) (m : Memory) :
    (∀ path dirBlk path' dirBlk', Flat.getFileInode base m (path, dirBlk) = .calls (path', dirBlk') →
      ∃ str, path = some str ∧ (path' = none ∨ ∃ rest, path' = some rest ∧ rest <:+ str ∧ rest.length < str.length)) ∧
    ∀ path dirBlk, ∃ v, Ends (Flat.getFileInode base m) (path, dirBlk) v ∧
      Within (getFileInode base m path dirBlk) v := by
  refine ⟨fun path dirBlk path' dirBlk' h => ?_, fun path dirBlk => ?_⟩
  · obtain ⟨str, rfl, hshort⟩ := Flat.calls_shorter h
    cases hshort with
    | null => exact ⟨str, rfl, .inl rfl⟩
    | suffix hsuffix hlen => exact ⟨str, rfl, .inr ⟨_, rfl, hsuffix, hlen⟩⟩
  · obtain ⟨v, hv⟩ := Ends.exists_of_measure remaining (fun s s' => Flat.calls_remaining) (path, dirBlk)
    exact ⟨v, hv, lookup_ends hv (by cases path <;> simp [remaining])⟩

end MemeOS.Ramdisk
