import MemeOS.Primer2.Buffer

/-! The memory total and the lines that `memos1.S` prints, against those of the entries that the BIOS has delivered. -/

namespace MemeOS.Primer2

open Lib

def lengths (entries : List Entry) : Word := entries.foldr (fun e total => e.lengthLow + total) 0

def usable (entries : List Entry) : List Entry := entries.filter fun e => e.type = 1

def aliased (entries : List Entry) : List Entry := entries.filter fun e => e.type ≠ 1 ∧ e.type.setWidth 16 = (1 : Half)

/-- No call fails, and the last one alone leaves `EBX` zero. -/
structure Delivered (answers : List Answer) : Prop where
  fine : ∀ a ∈ answers, a.carry = false ∧ a.edx = smap
  last : ∃ init a, answers = init ++ [a] ∧ (∀ b ∈ init, b.ebx ≠ 0) ∧ a.ebx = 0

def isDigit (c : UInt8) : Bool := '0'.toUInt8 ≤ c ∧ c ≤ '9'.toUInt8

/-- The number behind the welcome message is that of the usable megabytes, and each entry has a line. -/
structure Reports (entries : List Entry) (screen : List UInt8) : Prop where
  welcome : msgWelcome <+: screen
  total : (screen.drop msgWelcome.length).takeWhile isDigit = numeral 10 ((lengths (usable entries)).toNat / 2 ^ 20)
  lines : (∀ e ∈ entries, 1 ≤ e.type ∧ e.type ≤ 5) → occurrences addrRange screen = entries.length

/-- The last entry adds to no megabyte, nor do those that are mistaken for usable ones; and no type that is still to be
printed was stored over with something else. -/
structure Harmless (entries : List Entry) : Prop where
  total : (lengths (usable entries) - lengths (usable entries.getLast?.toList) + lengths (aliased entries.dropLast)) >>> 20 =
    lengths (usable entries) >>> 20
  lines : (∀ e ∈ entries, 1 ≤ e.type ∧ e.type ≤ 5) →
    entries.length ≤ 2 ^ 16 ∧ ∀ i, i + 1 < entries.length → ∃ w ∈ typeLeft entries i, Known w

section

variable {m : Machine} {es : Memory} {e : Entry} {entries : List Entry} {total : Word} {rest : List Word} {i : ℕ}

def counted (entries : List Entry) : Word := lengths (entries.filter fun e => e.type.setWidth 16 = (1 : Half))

lemma lengths_cons (e : Entry) (entries : List Entry) : lengths (e :: entries) = e.lengthLow + lengths entries := rfl

lemma counted_eq (entries : List Entry) : counted entries = lengths (usable entries) + lengths (aliased entries) := by
  induction entries with
  | nil => rfl
  | cons e entries ih =>
    rw [counted] at ih
    rw [counted, usable, aliased]
    by_cases h1 : e.type = 1
    · have hlow : e.type.setWidth 16 = (1 : Half) := by rw [h1]; rfl
      rw [List.filter_cons_of_pos (by simpa using hlow), List.filter_cons_of_pos (by simpa using h1),
        List.filter_cons_of_neg (by simp [h1]), lengths_cons, lengths_cons, ih, BitVec.add_assoc]
      rfl
    by_cases hlow : e.type.setWidth 16 = (1 : Half)
    · rw [List.filter_cons_of_pos (by simpa using hlow), List.filter_cons_of_neg (by simpa using h1),
        List.filter_cons_of_pos (by simpa using ⟨h1, hlow⟩), lengths_cons, lengths_cons, ih, usable, aliased]
      bv_omega
    · rw [List.filter_cons_of_neg (by simpa using hlow), List.filter_cons_of_neg (by simpa using h1),
        List.filter_cons_of_neg (by simpa using fun _ => hlow), ih]
      rfl

lemma lengths_append (entries entries' : List Entry) :
    lengths (entries ++ entries') = lengths entries + lengths entries' := by
  induction entries with
  | nil => exact (BitVec.zero_add _).symm
  | cons e entries ih => rw [List.cons_append, lengths_cons, lengths_cons, ih, BitVec.add_assoc]

lemma load_own (e : Entry) (es : Memory) (i : ℕ) : load (e.store (slot i) es) (slot i + 16) = e.type ∧
    load (e.store (slot i) es) (slot i + 8) = e.lengthLow := by
  have hi := slot_aligned i
  have hfield : ∀ k : Half, k.toNat % 8 = 0 → (slot i + k).toNat % 8 = 0 := fun k hk => by
    rw [BitVec.toNat_add]
    omega
  have hne : slot i + 8 ≠ slot i + 16 := by bv_omega
  rw [load_entry hi (hfield 16 rfl), load_entry hi (hfield 8 rfl), if_pos rfl, if_neg hne, if_pos rfl]
  exact ⟨rfl, rfl⟩

lemma slot_succ (i : ℕ) : slot i + 24 = slot (i + 1) := by
  rw [slot, slot, Nat.mul_succ, BitVec.ofNat_add]
  rfl

lemma doE820_last {a : Answer} (ha : a.carry = false ∧ a.edx = smap) (hlast : a.ebx = 0) (m : Machine) :
    doE820 [a] m = printRegion { m with bp := m.bp + 1, es := a.entry.store m.di m.es } := by
  rw [doE820, ha.1, if_neg (by decide), if_neg (not_not_intro ha.2), if_pos hlast]

lemma doE820_more {a : Answer} {answers : List Answer} (ha : a.carry = false ∧ a.edx = smap) (hmore : a.ebx ≠ 0)
    (hdi : m.di = slot i) (hstack : m.stack = total :: rest) :
    doE820 (a :: answers) m = doE820 answers
      { m with
        bp := m.bp + 1, di := slot (i + 1), stack := (total + counted [a.entry]) :: rest
        es := a.entry.store (slot i) m.es } := by
  obtain ⟨htype, hlength⟩ := load_own a.entry m.es i
  rw [doE820, ha.1, if_neg (by decide), if_neg (not_not_intro ha.2), if_neg hmore, counted]
  dsimp only
  rw [hdi, htype, hlength, hstack, slot_succ]
  have hnil : lengths [] = 0#32 := rfl
  by_cases hlow : a.entry.type.setWidth 16 = (1 : Half)
  · rw [if_pos hlow, List.filter_cons_of_pos (by simpa using hlow), lengths_cons, List.filter_nil, hnil, BitVec.add_zero]
  · rw [if_neg hlow, List.filter_cons_of_neg (by simpa using hlow), List.filter_nil, hnil, BitVec.add_zero]

lemma counted_cons (e : Entry) (entries : List Entry) : counted (e :: entries) = counted [e] + counted entries := by
  rw [counted, ← List.singleton_append, List.filter_append, lengths_append]
  rfl

lemma doE820_spec {init : List Answer} {a : Answer} (hfine : ∀ b ∈ init ++ [a], b.carry = false ∧ b.edx = smap)
    (hmore : ∀ b ∈ init, b.ebx ≠ 0) (hlast : a.ebx = 0) (hdi : m.di = slot i) (hstack : m.stack = total :: rest) :
    doE820 (init ++ [a]) m = printRegion
      { m with
        bp := m.bp + BitVec.ofNat 16 (init.length + 1), di := slot (i + init.length)
        stack := (total + counted (init.map Answer.entry)) :: rest
        es := storeAll m.es i ((init ++ [a]).map Answer.entry) } := by
  induction init generalizing m total i with
  | nil =>
    rw [List.nil_append, doE820_last (hfine a (by simp)) hlast, hdi]
    congr 2
    rw [hstack]
    congr 1
    exact (BitVec.add_zero _).symm
  | cons b init ih =>
    rw [List.cons_append, doE820_more (hfine b (by simp)) (hmore b (by simp)) hdi hstack,
      ih (fun c hc => hfine c (List.mem_cons_of_mem _ hc)) (fun c hc => hmore c (List.mem_cons_of_mem _ hc)) rfl rfl]
    rw [BitVec.add_assoc total, ← counted_cons, BitVec.add_assoc m.bp, Nat.add_right_comm i]
    congr 2
    rw [List.length_cons, Nat.add_comm (init.length + 1) 1, BitVec.ofNat_add 1]
    rfl

lemma isDigit_numeral (n : ℕ) {c : UInt8} (hc : c ∈ numeral 10 n) : isDigit c = true := by
  obtain ⟨hd | ⟨ha, -⟩, hv⟩ := numeral_digits (by omega) (by omega) n hc
  · exact decide_eq_true hd
  · have h97 : 97 ≤ c.toNat := UInt8.le_iff_toNat_le.mp ha
    have h9 : ¬ c ≤ '9'.toUInt8 := fun h => by
      have h57 : c.toNat ≤ 57 := UInt8.le_iff_toNat_le.mp h
      omega
    rw [digitValue, if_neg h9] at hv
    omega

lemma takeWhile_numeral (n : ℕ) (t : List UInt8) :
    (numeral 10 n ++ (msgUnits ++ t)).takeWhile isDigit = numeral 10 n := by
  rw [List.takeWhile_append_of_pos fun c hc => isDigit_numeral n hc]
  exact List.append_nil _

lemma numeral_inj {n k : ℕ} : numeral 10 n = numeral 10 k ↔ n = k := by
  refine ⟨fun h => ?_, fun h => congrArg _ h⟩
  rw [← @valueIn_numeral 10 (by omega) (by omega) n, h, valueIn_numeral (by omega) (by omega)]

lemma occurrences_front (n : ℕ) : occurrences addrRange (msgWelcome ++ (numeral 10 n ++ msgUnits)) = 0 := by
  have hwelcome : '['.toUInt8 ∉ msgWelcome := by decide
  have hunits : '['.toUInt8 ∉ msgUnits := by decide
  rw [← List.nil_append (msgWelcome ++ _), occurrences_append_of_bracket]
  · rfl
  · simp only [List.mem_append, not_or]
    exact ⟨hwelcome, bracket_notMem_numeral _, hunits⟩

lemma lines_spec {k n : ℕ} (hn : 0 < n) (hk : k = if n % 2 ^ 16 = 0 then 2 ^ 16 else n % 2 ^ 16) :
    0 < k ∧ k ≤ 2 ^ 16 ∧ k ≤ n ∧ (n ≤ 2 ^ 16 → k = n) ∧ BitVec.ofNat 16 n = BitVec.ofNat 16 k := by
  split_ifs at hk with h0
  · refine ⟨by omega, by omega, by omega, by omega, BitVec.eq_of_toNat_eq ?_⟩
    rw [BitVec.toNat_ofNat, BitVec.toNat_ofNat, h0, hk, Nat.mod_self]
  · refine ⟨by omega, by omega, by omega, by omega, BitVec.eq_of_toNat_eq ?_⟩
    rw [BitVec.toNat_ofNat, BitVec.toNat_ofNat, hk, Nat.mod_mod]

lemma memos1_eq {init : List Answer} {a : Answer} (hfine : ∀ b ∈ init ++ [a], b.carry = false ∧ b.edx = smap)
    (hmore : ∀ b ∈ init, b.ebx ≠ 0) (hlast : a.ebx = 0) (es : Memory) :
    memos1 es (init ++ [a]) = printStart (2 ^ 16)
      { bp := BitVec.ofNat 16 (init.length + 1), di := 0, stack := []
        es := storeAll es 0 ((init ++ [a]).map Answer.entry)
        screen := msgWelcome ++ (numeral 10 (counted (init.map Answer.entry) >>> 20).toNat ++ msgUnits) } := by
  have hdi : (0 : Half) = slot 0 := rfl
  rw [memos1, printStr_eq]
  dsimp only
  rw [doE820_spec hfine hmore hlast hdi rfl, printRegion]
  dsimp only
  rw [printNum_eq]
  simp only [printStr_eq, Option.bind_eq_bind, Option.bind_some, List.nil_append, List.append_assoc]
  rw [show (0 : Word) + counted (init.map Answer.entry) = _ from BitVec.zero_add _,
    show (0 : Half) + BitVec.ofNat 16 (init.length + 1) = _ from BitVec.zero_add _]

lemma total_iff (init : List Entry) (e : Entry) :
    numeral 10 (counted init >>> 20).toNat = numeral 10 ((lengths (usable (init ++ [e]))).toNat / 2 ^ 20) ↔
      (lengths (usable (init ++ [e])) - lengths (usable (init ++ [e]).getLast?.toList) +
        lengths (aliased (init ++ [e]).dropLast)) >>> 20 = lengths (usable (init ++ [e])) >>> 20 := by
  have hsplit : lengths (usable (init ++ [e])) = lengths (usable init) + lengths (usable [e]) := by
    rw [usable, List.filter_append, lengths_append]
    rfl
  rw [numeral_inj, List.getLast?_concat, List.dropLast_concat, Option.toList_some, hsplit, BitVec.add_sub_cancel,
    ← counted_eq, ← hsplit, ← BitVec.toNat_inj, BitVec.toNat_ushiftRight (lengths _), Nat.shiftRight_eq_div_pow]

lemma known_of_type {w : Word} (h : 1 ≤ w ∧ w ≤ 5) : Known w := by
  obtain ⟨h1, h5⟩ := h
  rw [Known]
  bv_omega

lemma harmless_of_reserved_last {init : List Entry} {e : Entry} (htypes : ∀ e' ∈ init ++ [e], 1 ≤ e'.type ∧ e'.type ≤ 5)
    (he : e.type ≠ 1) (hlen : init.length < 2731) : Harmless (init ++ [e]) := by
  have hlast : usable [e] = [] := List.filter_cons_of_neg (by simpa using he)
  have halias : aliased init = [] := by
    refine List.filter_eq_nil_iff.mpr fun e' he' => ?_
    have htype := htypes e' (List.mem_append_left _ he')
    simp only [decide_eq_true_eq, not_and]
    intro h1
    bv_omega
  have hlength : (init ++ [e]).length = init.length + 1 := by simp
  refine ⟨?_, fun _ => ⟨by omega, fun i hi => ?_⟩⟩
  · rw [List.getLast?_concat, List.dropLast_concat, Option.toList_some, hlast, halias, show lengths [] = 0#32 from rfl,
      BitVec.add_zero, BitVec.sub_zero]
  · exact ⟨_, typeLeft_short (by omega) (by omega), known_of_type (htypes _ (List.getElem_mem _))⟩

end

theorem memos1_reports (es : Memory) (answers : List Answer) (h : Delivered answers) :
    ∃ m, memos1 es answers = some m ∧
      (Reports (answers.map Answer.entry) m.screen ↔ Harmless (answers.map Answer.entry)) := by
  obtain ⟨hfine, init, a, rfl, hmore, hlast⟩ := h
  set entries := (init ++ [a]).map Answer.entry with hentries
  have hlen : entries.length = init.length + 1 := by simp [hentries]
  have hconcat : entries = init.map Answer.entry ++ [a.entry] := by simp [hentries]
  obtain ⟨hk, hwidth, hle, heq, hbp⟩ := lines_spec (n := entries.length) (by omega) rfl
  set k := if entries.length % 2 ^ 16 = 0 then 2 ^ 16 else entries.length % 2 ^ 16
  obtain ⟨m, t, r, hrun, hscreen, hocc, hr, hall⟩ := @printStart_spec
    { bp := BitVec.ofNat 16 (init.length + 1), di := 0, stack := [], es := storeAll es 0 entries
      screen := msgWelcome ++ (numeral 10 (counted (init.map Answer.entry) >>> 20).toNat ++ msgUnits) }
    (2 ^ 16) k hk hwidth (by rw [← hlen]; exact hbp) hwidth
  rw [occurrences_front, Nat.zero_add] at hocc
  rw [List.append_assoc, List.append_assoc] at hscreen
  have htotal := total_iff (init.map Answer.entry) a.entry
  rw [← hconcat] at htotal
  have hlines : r = entries.length ↔
      entries.length ≤ 2 ^ 16 ∧ ∀ i, i + 1 < entries.length → ∃ w ∈ typeLeft entries i, Known w := by
    have hleft : ∀ i, i + 1 < entries.length → ((∃ w ∈ typeLeft entries i, Known w) ↔
        Known (load (storeAll es 0 entries) (0 + BitVec.ofNat 16 (24 * i) + 16))) := fun i hi => by
      rw [show (0 : Half) + BitVec.ofNat 16 (24 * i) = slot i from BitVec.zero_add _,
        @typeLeft_load es entries i (by omega)]
      simp
    refine ⟨fun h => ?_, fun ⟨hshort, h⟩ => ?_⟩
    · have hkr : k = entries.length := le_antisymm hle (h ▸ hr)
      exact ⟨by omega, fun i hi => (hleft i hi).mpr (hall.mp (h.trans hkr.symm) i (hkr ▸ hi))⟩
    · rw [← heq hshort]
      exact hall.mpr fun i hi => (hleft i (by omega)).mp (h i (by omega))
  refine ⟨m, (memos1_eq hfine hmore hlast es).trans hrun, fun h => ⟨?_, fun htypes => ?_⟩, fun h => ⟨?_, ?_, fun htypes => ?_⟩⟩
  · have hdigits := h.total
    rw [hscreen, List.drop_left, takeWhile_numeral] at hdigits
    exact htotal.mp hdigits
  · exact hlines.mp (hocc.symm.trans (h.lines htypes))
  · exact ⟨_, hscreen.symm⟩
  · rw [hscreen, List.drop_left, takeWhile_numeral]
    exact htotal.mpr h.total
  · exact hocc.trans (hlines.mpr (h.lines htypes))

def conventional : Entry := ⟨0, 0, 0x9fc00, 0, 1, none⟩
def extended : Entry := ⟨0x100000, 0, 0x1f00000, 0, 1, none⟩
def rom : Entry := ⟨0xfffc0000, 0, 0x40000, 0, 2, none⟩

theorem memos1_reports_before_rom : ∃ m,
    memos1 (fun _ => 0) [⟨conventional, 1, smap, false⟩, ⟨extended, 2, smap, false⟩, ⟨rom, 0, smap, false⟩] = some m ∧
      Reports [conventional, extended, rom] m.screen := by
  obtain ⟨m, hrun, hiff⟩ := memos1_reports (fun _ => 0)
    [⟨conventional, 1, smap, false⟩, ⟨extended, 2, smap, false⟩, ⟨rom, 0, smap, false⟩]
    ⟨by decide, [⟨conventional, 1, smap, false⟩, ⟨extended, 2, smap, false⟩], ⟨rom, 0, smap, false⟩, rfl, by decide, rfl⟩
  exact ⟨m, hrun, hiff.mpr
    (@harmless_of_reserved_last [conventional, extended] rom (by decide) (by decide) (by decide))⟩

theorem memos1_misses_last :
    Delivered [⟨conventional, 1, smap, false⟩, ⟨extended, 0, smap, false⟩] ∧
      ∃ m, memos1 (fun _ => 0) [⟨conventional, 1, smap, false⟩, ⟨extended, 0, smap, false⟩] = some m ∧
        (m.screen.drop msgWelcome.length).takeWhile isDigit = numeral 10 0 ∧
        (lengths (usable [conventional, extended])).toNat / 2 ^ 20 = 31 ∧ ¬ Reports [conventional, extended] m.screen := by
  refine ⟨⟨by decide, [⟨conventional, 1, smap, false⟩], ⟨extended, 0, smap, false⟩, rfl, by decide, rfl⟩, ?_⟩
  have hdigits : ((memos1 (fun _ => 0) [⟨conventional, 1, smap, false⟩, ⟨extended, 0, smap, false⟩]).map fun m =>
      (m.screen.drop msgWelcome.length).takeWhile isDigit) = some (numeral 10 0) := by decide +kernel
  obtain ⟨m, hrun, hzero⟩ := Option.map_eq_some_iff.mp hdigits
  refine ⟨m, hrun, hzero, rfl, fun h => ?_⟩
  have htotal := h.total
  rw [hzero] at htotal
  revert htotal
  decide +kernel

end MemeOS.Primer2
