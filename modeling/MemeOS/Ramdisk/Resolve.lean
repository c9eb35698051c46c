import MemeOS.Ramdisk.Unlink

/-! Paths and what they name. `get_file_inode` follows, from directory to directory, the first entry whose name is a
prefix of what is left of the path. -/

namespace MemeOS.Ramdisk

open Lib Stdlib

section

variable (base : ℕ) (m : Memory)

def isDir (p : ℕ) : Prop := m.word (inode base p) = inodeDir

instance (p : ℕ) : Decidable (isDir base m p) := inferInstanceAs (Decidable (_ = _))

def entryOf (p i : ℕ) : ℕ := m.word (inode base p + offDirblock) + 16 * i

def nameOf (p i : ℕ) : List UInt8 := stringAt m 14 (entryOf base m p i)

def numOf (p i : ℕ) : ℕ := m.half (entryOf base m p i + 14)

inductive At : ℕ → List (List UInt8) → Prop
  | root : At 0 []
  | entry {p i : ℕ} {path : List (List UInt8)} : At p path → isDir base m p → i < 16 → nameOf base m p i ≠ [] →
      At (numOf base m p i) (path ++ [nameOf base m p i])

/-- A tree of directories. An unused entry is as `rd_unlink` leaves it. -/
structure Tree : Prop where
  placed : Placed base
  root : isDir base m 0 ∧ m.word (inode base 0 + offDirblock) = rootBlk base
  onDisk : ∀ p path, At base m p path → isDir base m p → (disk base).Has (m.word (inode base p + offDirblock)) 256
  unused : ∀ p path, At base m p path → isDir base m p → ∀ i < 16, nameOf base m p i = [] → numOf base m p i = 0
  names : ∀ p path, At base m p path → isDir base m p → ∀ i < 16,
    (nameOf base m p i).length ≤ 13 ∧ delim ∉ nameOf base m p i
  unique : ∀ p path, At base m p path → isDir base m p → ∀ i < 16, ∀ j < 16, nameOf base m p i ≠ [] →
    nameOf base m p i = nameOf base m p j → i = j
  inodes : ∀ p path, At base m p path → isDir base m p → ∀ i < 16, nameOf base m p i ≠ [] →
    numOf base m p i ≠ 0 ∧ numOf base m p i < 0x800 ∧
      (isDir base m (numOf base m p i) ∨ m.word (inode base (numOf base m p i)) = inodeReg)
  once : ∀ p path, At base m p path → isDir base m p → ∀ q path', At base m q path' → isDir base m q →
    ∀ i < 16, ∀ j < 16, nameOf base m p i ≠ [] → nameOf base m q j ≠ [] → numOf base m p i = numOf base m q j →
      p = q ∧ i = j

def resolve : List (List UInt8) → ℕ → Option ℕ
  | [], p => some p
  | c :: cs, p =>
    if isDir base m p then
      ((List.range 16).find? fun i => nameOf base m p i = c).bind fun i => resolve cs (numOf base m p i)
    else none

def firstPrefix (p : ℕ) (c : List UInt8) : Option ℕ := (List.range 16).find? fun i => (nameOf base m p i).isPrefixOf c

/-- The path leads to a regular file, and the first entries on the way are the right ones. -/
def Straight : List (List UInt8) → ℕ → Prop
  | [], p => m.word (inode base p) = inodeReg
  | c :: cs, p => isDir base m p ∧
      ∃ i, firstPrefix base m p c = some i ∧ nameOf base m p i = c ∧ Straight cs (numOf base m p i)

/-- The first entries lead to a regular file, wherever on the path. -/
def Stops : List (List UInt8) → ℕ → Prop
  | [], _ => False
  | c :: cs, p => ∃ i, firstPrefix base m p c = some i ∧ (isDir base m (numOf base m p i) → Stops cs (numOf base m p i))

end

def pathOf (cs : List (List UInt8)) : List UInt8 := cs.flatMap (delim :: ·)

def absolute (cs : List (List UInt8)) : List UInt8 := if cs = [] then [delim] else pathOf cs

/-- `get_file_inode` finds what the path names, or nothing if it names nothing. -/
def ResolvesExactly (base : ℕ) (m : Memory) (cs : List (List UInt8)) : Prop :=
  getFileInode base m (some (absolute cs)) (rootBlk base) = .ok ((resolve base m cs 0).elim 0 (inode base))

section

variable {base : ℕ} {m : Memory} {p k i j a : ℕ} {c name : List UInt8} {cs ds : List (List UInt8)}

lemma strIsPrefix_eq {left : ℕ} (hlt : (stringAt m left a).length < left) (hlo : base ≤ a)
    (hhi : a + left ≤ base + 0x200000) (str : List UInt8) :
    strIsPrefix base m str a = .ok ((stringAt m left a).isPrefixOf str) := by
  induction left generalizing a str with
  | zero => omega
  | succ left ih =>
    have hbyte : (disk base).Has a 1 := ⟨hlo, by simp only [disk]; omega⟩
    rw [stringAt] at hlt ⊢
    by_cases h0 : m a = 0
    · rw [if_pos h0]
      cases str <;> simp [strIsPrefix, Region.byte_ok hbyte, h0, pure, Except.pure]
    · rw [if_neg h0] at hlt ⊢
      cases str with
      | nil => simp [strIsPrefix, Region.byte_ok hbyte, h0, pure, Except.pure]
      | cons d str =>
        rw [strIsPrefix, Region.byte_ok hbyte, ok_bind, if_neg h0]
        by_cases hd : m a = d
        · rw [if_neg (not_not_intro hd), ih (by simpa using hlt) (by omega) (by omega), hd]
          simp
        · rw [if_pos hd]
          simp [List.isPrefixOf, hd, pure, Except.pure]

lemma isPrefixOf_path (hname : delim ∉ name) : name.isPrefixOf (c ++ pathOf cs) = name.isPrefixOf c := by
  induction name generalizing c with
  | nil => rfl
  | cons b name ih =>
    have hb : b ≠ delim := fun h => hname (h ▸ List.mem_cons_self)
    cases c with
    | nil =>
      cases cs with
      | nil => rfl
      | cons d cs => simp [pathOf, List.isPrefixOf, hb]
    | cons d c =>
      simp only [List.cons_append, List.isPrefixOf]
      rw [ih fun h => hname (List.mem_cons_of_mem _ h)]

lemma strtok_path (hc : delim ∉ c) :
    strtok (c ++ pathOf cs) [delim] = if cs = [] then none else some (pathOf cs) := by
  induction c with
  | nil =>
    cases cs with
    | nil => rfl
    | cons d cs => simp [pathOf, strtok]
  | cons b c ih =>
    have hb : b ∉ [delim] := fun h => hc (by simp_all)
    rw [List.cons_append, strtok, if_neg hb]
    exact ih fun h => hc (List.mem_cons_of_mem _ h)

lemma strcmp_delim {str : List UInt8} : strcmp (delim :: str) [delim] = true ↔ str = [] := by
  cases str <;> simp [strcmp]

lemma findPrefix_eq {path : List UInt8} {D left : ℕ}
    (hmatch : ∀ j < i + left, strIsPrefix base m path (D + 16 * j) = .ok ((stringAt m 14 (D + 16 * j)).isPrefixOf path)) :
    findPrefix base m path D left i =
      .ok ((List.range' i left).find? fun j => (stringAt m 14 (D + 16 * j)).isPrefixOf path) := by
  induction left generalizing i with
  | zero => rfl
  | succ left ih =>
    rw [findPrefix, hmatch i (by omega), ok_bind, List.range'_succ, List.find?_cons]
    cases (stringAt m 14 (D + 16 * i)).isPrefixOf path with
    | true => rfl
    | false =>
      rw [if_neg (by simp)]
      exact ih fun j hj => hmatch j (by omega)

def walk (base : ℕ) (m : Memory) : List (List UInt8) → ℕ → Option ℕ
  | [], _ => none
  | c :: cs, p => (firstPrefix base m p c).bind fun i =>
      if isDir base m (numOf base m p i) then walk base m cs (numOf base m p i) else some (numOf base m p i)

lemma firstPrefix_some (h : firstPrefix base m p c = some i) : i < 16 ∧ (nameOf base m p i).isPrefixOf c = true := by
  refine ⟨List.mem_range.mp (List.mem_of_find?_eq_some h), ?_⟩
  have hfound := List.find?_some h
  exact hfound

lemma Tree.next (hm : Tree base m) (hat : At base m p ds) (hd : isDir base m p) (hi : i < 16) :
    numOf base m p i < 0x800 ∧
      (nameOf base m p i ≠ [] ∧ At base m (numOf base m p i) (ds ++ [nameOf base m p i]) ∨ numOf base m p i = 0) := by
  by_cases hname : nameOf base m p i = []
  · have h0 := hm.unused p ds hat hd i hi hname
    exact ⟨by omega, .inr h0⟩
  · exact ⟨(hm.inodes p ds hat hd i hi hname).2.1, .inl ⟨hname, .entry hat hd hi hname⟩⟩

lemma findPrefix_firstPrefix {str : List UInt8} (hblk : (disk base).Has (m.word (inode base p + offDirblock)) 256)
    (hnames : ∀ j < 16, (nameOf base m p j).length ≤ 13) :
    findPrefix base m str (m.word (inode base p + offDirblock)) 16 0 = .ok (firstPrefix base m p str) := by
  obtain ⟨hlo, hhi⟩ := hblk
  simp only [disk] at hlo hhi
  rw [findPrefix_eq fun j hj => ?_, firstPrefix, List.range_eq_range']
  · rfl
  · have hlt : (stringAt m 14 (m.word (inode base p + offDirblock) + 16 * j)).length < 14 :=
      Nat.lt_succ_of_le (hnames j (by omega))
    exact strIsPrefix_eq hlt (by omega) (by omega) _

lemma Tree.findPrefix_eq (hm : Tree base m) (hat : At base m p ds) (hd : isDir base m p) :
    findPrefix base m (c ++ pathOf cs) (m.word (inode base p + offDirblock)) 16 0 = .ok (firstPrefix base m p c) := by
  rw [findPrefix_firstPrefix (hm.onDisk p ds hat hd) fun j hj => (hm.names p ds hat hd j hj).1]
  refine congrArg Except.ok (List.find?_congr fun j hj => ?_)
  exact isPrefixOf_path (hm.names p ds hat hd j (List.mem_range.mp hj)).2

lemma lookup_step {fuel : ℕ} {str : List UInt8} (hne : str ≠ [])
    (hblk : (disk base).Has (m.word (inode base p + offDirblock)) 256) (hnum : ∀ i < 16, numOf base m p i < 0x800)
    (hfind : findPrefix base m str (m.word (inode base p + offDirblock)) 16 0 = .ok (firstPrefix base m p c)) :
    lookup base m (fuel + 1) (some (delim :: str)) (m.word (inode base p + offDirblock)) =
      (firstPrefix base m p c).elim (.ok 0) fun i =>
        if isDir base m (numOf base m p i) then
          lookup base m fuel (strtok str [delim]) (m.word (inode base (numOf base m p i) + offDirblock))
        else .ok (inode base (numOf base m p i)) := by
  rw [lookup, if_neg (mt strcmp_delim.mp hne)]
  simp only [List.head?_cons, if_true, List.tail_cons, hfind, ok_bind]
  cases hfirst : firstPrefix base m p c with
  | none => rfl
  | some i =>
    have hi := (firstPrefix_some hfirst).1
    have hhas : (disk base).Has (entryOf base m p i + 14) 2 := by
      simp only [Region.Has, disk, entryOf] at *
      omega
    have hhalf : (disk base).half m (m.word (inode base p + offDirblock) + 16 * i + 14) = .ok (numOf base m p i) :=
      Region.half_ok hhas
    have htype : (disk base).Has (inode base (numOf base m p i)) 4 := has_inode (o := 0) (hnum i hi) (by decide)
    have hptr : (disk base).Has (inode base (numOf base m p i) + offDirblock) 4 := has_inode (hnum i hi) (by decide)
    simp only [hhalf, ok_bind, Region.word_ok htype, Region.word_ok hptr]
    rfl

lemma lookup_eq {fuel : ℕ} (hm : Tree base m) (hcs : ∀ c ∈ cs, c ≠ [] ∧ delim ∉ c) (hat : At base m p ds)
    (hd : isDir base m p) (hne : cs ≠ []) (hfuel : cs.length ≤ fuel) :
    lookup base m fuel (some (pathOf cs)) (m.word (inode base p + offDirblock)) =
      .ok ((walk base m cs p).elim 0 (inode base)) := by
  induction cs generalizing p ds fuel with
  | nil => exact absurd rfl hne
  | cons c cs ih =>
    obtain ⟨hc, hdelim⟩ := hcs c List.mem_cons_self
    obtain ⟨fuel, rfl⟩ : ∃ n, fuel = n + 1 := ⟨fuel - 1, by simp only [List.length_cons] at hfuel; omega⟩
    have hpath : pathOf (c :: cs) = delim :: (c ++ pathOf cs) := rfl
    have hstr : c ++ pathOf cs ≠ [] := fun h => hc (List.append_eq_nil_iff.mp h).1
    rw [hpath, lookup_step hstr (hm.onDisk p ds hat hd) (fun i hi => (hm.next hat hd hi).1) (hm.findPrefix_eq hat hd),
      strtok_path hdelim, walk]
    cases hfirst : firstPrefix base m p c with
    | none => rfl
    | some i =>
      obtain ⟨-, hnext⟩ := hm.next hat hd (firstPrefix_some hfirst).1
      rw [Option.elim_some, Option.bind_some]
      by_cases hsub : isDir base m (numOf base m p i)
      · rw [if_pos hsub, if_pos hsub]
        by_cases hlast : cs = []
        · subst hlast
          cases fuel <;> rfl
        · rw [if_neg hlast]
          obtain ⟨path, hat'⟩ : ∃ path, At base m (numOf base m p i) path := by
            obtain ⟨-, hat'⟩ | h0 := hnext
            · exact ⟨_, hat'⟩
            · rw [h0]
              exact ⟨[], .root⟩
          refine ih (fun d hd => hcs d (List.mem_cons_of_mem _ hd)) hat' hsub hlast ?_
          simp only [List.length_cons] at hfuel
          omega
      · rw [if_neg hsub, if_neg hsub]
        rfl

lemma Tree.path_unique (hm : Tree base m) (h : At base m k cs) (h' : At base m k ds) : cs = ds := by
  induction h generalizing ds with
  | root =>
    generalize hk : 0 = k at h'
    cases h' with
    | root => rfl
    | entry hq hd hi hname => exact absurd hk.symm (hm.inodes _ _ hq hd _ hi hname).1
  | @entry p i path hp hd hi hname ih =>
    generalize hk : numOf base m p i = k at h'
    cases h' with
    | root => exact absurd hk (hm.inodes _ _ hp hd _ hi hname).1
    | entry hq hd' hj hname' =>
      obtain ⟨rfl, rfl⟩ := hm.once _ _ hp hd _ _ hq hd' _ hi _ hj hname hname' hk
      rw [ih hq]

lemma resolve_cons (h : resolve base m (c :: cs) p = some k) :
    isDir base m p ∧ ∃ i < 16, nameOf base m p i = c ∧ resolve base m cs (numOf base m p i) = some k := by
  rw [resolve] at h
  split_ifs at h with hd
  obtain ⟨i, hfind, h⟩ := Option.bind_eq_some_iff.mp h
  refine ⟨hd, i, List.mem_range.mp (List.mem_of_find?_eq_some hfind), ?_, h⟩
  have hfound := List.find?_some hfind
  exact of_decide_eq_true hfound

lemma resolve_at (hcs : ∀ c ∈ cs, c ≠ [] ∧ delim ∉ c) (hat : At base m p ds) (h : resolve base m cs p = some k) :
    At base m k (ds ++ cs) := by
  induction cs generalizing p ds with
  | nil =>
    obtain rfl := Option.some.inj h
    rw [List.append_nil]
    exact hat
  | cons c cs ih =>
    obtain ⟨hd, i, hi, rfl, hnext⟩ := resolve_cons h
    have hstep := At.entry hat hd hi (hcs _ List.mem_cons_self).1
    have hrest := ih (fun d hd => hcs d (List.mem_cons_of_mem _ hd)) hstep hnext
    rwa [List.append_assoc, List.singleton_append] at hrest

lemma walk_cons (h : walk base m (c :: cs) p = some k) : ∃ i, firstPrefix base m p c = some i ∧
    (isDir base m (numOf base m p i) ∧ walk base m cs (numOf base m p i) = some k ∨
      ¬ isDir base m (numOf base m p i) ∧ numOf base m p i = k) := by
  rw [walk] at h
  obtain ⟨i, hfirst, h⟩ := Option.bind_eq_some_iff.mp h
  refine ⟨i, hfirst, ?_⟩
  split_ifs at h with hd
  · exact .inl ⟨hd, h⟩
  · exact .inr ⟨hd, Option.some.inj h⟩

-- Whatever the walk finds lies below where it started, unless it was sent back to the root on the way: then it lies
-- higher up than the path is long.
lemma Tree.walk_reach (hm : Tree base m) (hat : At base m p ds) (hd : isDir base m p) (h : walk base m cs p = some k) :
    ∃ es, At base m k es ∧ es.length ≤ ds.length + cs.length ∧ (es.length = ds.length + cs.length → ds <+: es) := by
  induction cs generalizing p ds with
  | nil => cases h
  | cons c cs ih =>
    obtain ⟨i, hfirst, hcases⟩ := walk_cons h
    obtain ⟨hi, -⟩ := firstPrefix_some hfirst
    obtain ⟨-, ⟨hname, hstep⟩ | h0⟩ := hm.next hat hd hi
    · obtain ⟨hsub, h⟩ | ⟨-, rfl⟩ := hcases
      · obtain ⟨es, hes, hlen, hpre⟩ := ih hstep hsub h
        simp only [List.length_append, List.length_cons, List.length_nil] at hlen hpre ⊢
        refine ⟨es, hes, by omega, fun he => ?_⟩
        exact (List.prefix_append _ _).trans (hpre (by omega))
      · refine ⟨_, hstep, ?_, fun _ => List.prefix_append _ _⟩
        simp only [List.length_append, List.length_cons, List.length_nil]
        omega
    · rw [h0] at hcases
      obtain ⟨hsub, h⟩ | ⟨hsub, -⟩ := hcases
      · obtain ⟨es, hes, hlen, -⟩ := ih .root hsub h
        simp only [List.length_nil, List.length_cons] at hlen ⊢
        exact ⟨es, hes, by omega, fun he => by omega⟩
      · exact absurd hm.root.1 hsub

lemma Tree.straight_of_walk (hm : Tree base m) (hat : At base m p ds) (hd : isDir base m p)
    (h : walk base m cs p = some k) (hk : At base m k (ds ++ cs)) : Straight base m cs p := by
  induction cs generalizing p ds with
  | nil => cases h
  | cons c cs ih =>
    obtain ⟨i, hfirst, hcases⟩ := walk_cons h
    obtain ⟨hi, -⟩ := firstPrefix_some hfirst
    refine ⟨hd, i, hfirst, ?_⟩
    obtain ⟨-, ⟨hname, hstep⟩ | h0⟩ := hm.next hat hd hi
    · obtain ⟨hsub, h⟩ | ⟨hsub, rfl⟩ := hcases
      · obtain ⟨es, hes, -, hpre⟩ := hm.walk_reach hstep hsub h
        obtain rfl := hm.path_unique hk hes
        have hpre := hpre (by simp only [List.length_append, List.length_cons, List.length_nil]; omega)
        obtain ⟨rest, hrest⟩ := hpre
        rw [List.append_assoc] at hrest
        obtain ⟨hc, -⟩ := List.cons.inj (List.append_cancel_left hrest)
        refine ⟨hc, ih hstep hsub h ?_⟩
        rw [hc, List.append_assoc]
        exact hk
      · obtain ⟨hc, rfl⟩ := List.cons.inj (List.append_cancel_left (hm.path_unique hstep hk))
        exact ⟨hc, (hm.inodes p ds hat hd i hi hname).2.2.resolve_left hsub⟩
    · -- the walk went on from the root with what is left of the path
      rw [h0] at hcases
      obtain ⟨hsub, h⟩ | ⟨hsub, -⟩ := hcases
      · obtain ⟨es, hes, hlen, -⟩ := hm.walk_reach .root hsub h
        rw [← hm.path_unique hk hes] at hlen
        simp only [List.length_append, List.length_nil, List.length_cons] at hlen
        omega
      · exact absurd hm.root.1 hsub

lemma Tree.resolve_of_straight (hm : Tree base m) (hat : At base m p ds) (hcs : ∀ c ∈ cs, c ≠ [] ∧ delim ∉ c)
    (h : Straight base m cs p) : (∃ k, resolve base m cs p = some k) ∧ (cs ≠ [] → walk base m cs p = resolve base m cs p) := by
  induction cs generalizing p ds with
  | nil => exact ⟨⟨p, rfl⟩, fun h => absurd rfl h⟩
  | cons c cs ih =>
    obtain ⟨hd, i, hfirst, rfl, hnext⟩ := h
    obtain ⟨hi, -⟩ := firstPrefix_some hfirst
    have hname := (hcs _ List.mem_cons_self).1
    have hfind : (List.range 16).find? (fun j => nameOf base m p j = nameOf base m p i) = some i := by
      rw [List.find?_range_eq_some]
      refine ⟨by simp, List.mem_range.mpr hi, fun j hj => ?_⟩
      have hne : nameOf base m p j ≠ nameOf base m p i := fun he =>
        absurd (hm.unique p ds hat hd i hi j (by omega) hname he.symm) (by omega)
      simpa using hne
    obtain ⟨⟨k, hk⟩, hwalk⟩ := ih (.entry hat hd hi hname) (fun d hd => hcs d (List.mem_cons_of_mem _ hd)) hnext
    have hres : resolve base m (nameOf base m p i :: cs) p = some k := by
      rw [resolve, if_pos hd, hfind, Option.bind_some, hk]
    refine ⟨⟨k, hres⟩, fun _ => ?_⟩
    rw [hres, walk, hfirst, Option.bind_some]
    cases cs with
    | nil =>
      obtain rfl := Option.some.inj hk
      have hreg : ¬ isDir base m (numOf base m p i) := fun hd => absurd (hd.symm.trans hnext) (by decide)
      rw [if_neg hreg]
    | cons c cs => rw [if_pos hnext.1, hwalk (by simp), hk]

lemma stops_iff : Stops base m cs p ↔ walk base m cs p ≠ none := by
  induction cs generalizing p with
  | nil => simp [Stops, walk]
  | cons c cs ih =>
    rw [Stops, walk]
    cases firstPrefix base m p c with
    | none => simp
    | some i =>
      by_cases hd : isDir base m (numOf base m p i)
      · simp [hd, ih]
      · simp [hd]

lemma inode_inj (h : inode base i = inode base j) : i = j := by
  simp only [inode] at h
  omega

lemma found_eq_iff (hp : Placed base) {x y : Option ℕ} : x.elim 0 (inode base) = y.elim 0 (inode base) ↔ x = y := by
  have hne : ∀ k, inode base k ≠ 0 := fun k => by
    simp only [inode, inodeArray]
    omega
  cases x with
  | none => cases y <;> simp [(hne _).symm]
  | some k =>
    cases y with
    | none => simp [hne]
    | some l => simpa using ⟨inode_inj, fun h => h ▸ rfl⟩

lemma getFileInode_eq (hm : Tree base m) (hcs : ∀ c ∈ cs, c ≠ [] ∧ delim ∉ c) (hne : cs ≠ []) :
    getFileInode base m (some (absolute cs)) (rootBlk base) = .ok ((walk base m cs 0).elim 0 (inode base)) := by
  have hlen : cs.length ≤ (pathOf cs).length + 1 := by
    clear hcs hne
    induction cs with
    | nil => exact Nat.zero_le _
    | cons c cs ih =>
      simp only [pathOf, List.flatMap_cons, List.length_append, List.length_cons] at ih ⊢
      omega
  rw [getFileInode, absolute, if_neg hne, ← hm.root.2]
  exact lookup_eq hm hcs .root hm.root.1 hne hlen

theorem resolves_exactly_iff (hm : Tree base m) (hcs : ∀ c ∈ cs, c ≠ [] ∧ delim ∉ c) :
    ResolvesExactly base m cs ↔ cs = [] ∨ Straight base m cs 0 ∨ resolve base m cs 0 = none ∧ ¬ Stops base m cs 0 := by
  by_cases hne : cs = []
  · subst hne
    exact iff_of_true rfl (.inl rfl)
  rw [ResolvesExactly, getFileInode_eq hm hcs hne, Except.ok.injEq, found_eq_iff hm.placed]
  constructor
  · intro heq
    cases hres : resolve base m cs 0 with
    | none =>
      refine .inr (.inr ⟨rfl, ?_⟩)
      rw [stops_iff, heq, hres]
      exact not_not_intro rfl
    | some k =>
      exact .inr (.inl (hm.straight_of_walk .root hm.root.1 (heq.trans hres) (resolve_at hcs .root hres)))
  · rintro (h | h | ⟨hres, hstop⟩)
    · exact absurd h hne
    · exact (hm.resolve_of_straight .root hcs h).2 hne
    · rw [stops_iff, not_not] at hstop
      rw [hstop, hres]

lemma namedA_entries : ∀ i < 16, nameOf 0x100000 (namedA 1) 0 i = (if i = 0 then [97] else []) ∧
    numOf 0x100000 (namedA 1) 0 i = if i = 0 then 1 else 0 := by
  decide +kernel

lemma namedA_file : (namedA 1).word (inode 0x100000 1) = inodeReg := by decide +kernel

lemma namedA_dir {path : List (List UInt8)} (hat : At 0x100000 (namedA 1) p path) (hd : isDir 0x100000 (namedA 1) p) :
    p = 0 := by
  induction hat with
  | root => rfl
  | @entry q i path hq hdq hi hname ih =>
    obtain rfl := ih hdq
    obtain ⟨hentry, hnum⟩ := namedA_entries i hi
    by_cases hi0 : i = 0
    · rw [hnum, if_pos hi0] at hd
      exact absurd (hd.symm.trans namedA_file) (by decide)
    · exact absurd (hentry.trans (if_neg hi0)) hname

lemma namedA_used (hi : i < 16) (hname : nameOf 0x100000 (namedA 1) 0 i ≠ []) : i = 0 := by
  by_contra hi0
  exact hname ((namedA_entries i hi).1.trans (if_neg hi0))

lemma namedA_tree : Tree 0x100000 (namedA 1) where
  placed := by decide
  root := by decide +kernel
  onDisk p path hat hd := by
    obtain rfl := namedA_dir hat hd
    decide +kernel
  unused p path hat hd i hi hname := by
    obtain rfl := namedA_dir hat hd
    obtain ⟨hentry, hnum⟩ := namedA_entries i hi
    split_ifs at hentry hnum
    · exact absurd (hentry.symm.trans hname) (by decide)
    · exact hnum
  names p path hat hd i hi := by
    obtain rfl := namedA_dir hat hd
    rw [(namedA_entries i hi).1]
    split_ifs <;> decide
  unique p path hat hd i hi j hj hname he := by
    obtain rfl := namedA_dir hat hd
    rw [namedA_used hi hname, namedA_used hj (he ▸ hname)]
  inodes p path hat hd i hi hname := by
    obtain rfl := namedA_dir hat hd
    obtain rfl := namedA_used hi hname
    rw [(namedA_entries 0 hi).2, if_pos rfl]
    exact ⟨by decide, by decide, .inr namedA_file⟩
  once p path hat hd q path' hat' hd' i hi j hj hname hname' _ := by
    obtain rfl := namedA_dir hat hd
    obtain rfl := namedA_dir hat' hd'
    exact ⟨rfl, (namedA_used hi hname).trans (namedA_used hj hname').symm⟩

theorem resolves_exactly_of_namedA : Straight 0x100000 (namedA 1) [[97]] 0 ∧ ResolvesExactly 0x100000 (namedA 1) [[97]] := by
  have hstraight : Straight 0x100000 (namedA 1) [[97]] 0 := by
    refine ⟨by decide +kernel, 0, by decide +kernel, by decide +kernel, ?_⟩
    rw [(namedA_entries 0 (by decide)).2]
    exact namedA_file
  exact ⟨hstraight, (resolves_exactly_iff namedA_tree (by decide)).mpr (.inr (.inl hstraight))⟩

theorem lookup_takes_prefix : Tree 0x100000 (namedA 1) ∧ ¬ ResolvesExactly 0x100000 (namedA 1) [[97, 98]] := by
  refine ⟨namedA_tree, ?_⟩
  have hcode : getFileInode 0x100000 (namedA 1) (some (absolute [[97, 98]])) (rootBlk 0x100000) =
      .ok (inode 0x100000 1) := by rfl
  have hspec : resolve 0x100000 (namedA 1) [[97, 98]] 0 = none := by decide +kernel
  rw [ResolvesExactly, hcode, hspec]
  simp [inode, inodeArray]

end

end MemeOS.Ramdisk
