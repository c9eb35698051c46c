import MemeOS.Lib.Memory

/-! `memos1.S`: the memory map of the BIOS is read entry by entry into the segment `ES`, the usable memory added up on
the stack, and both put on the screen. What a routine saves on the stack and restores at its end is left out, and so
are the registers that are dead from one label to the next. -/

namespace MemeOS.Primer2

open Lib

abbrev Half := BitVec 16
abbrev Word := BitVec 32

-- Twenty bytes, and the four extended ones of a BIOS that has them.
structure Entry where
  baseLow : Word
  baseHigh : Word
  lengthLow : Word
  lengthHigh : Word
  type : Word
  attributes : Option Word
  deriving DecidableEq

structure Answer where
  entry : Entry
  ebx : Word
  edx : Word
  carry : Bool
  deriving DecidableEq

structure Machine where
  bp : Half
  di : Half
  stack : List Word
  es : Memory
  screen : List UInt8

def load (es : Memory) (a : Half) : Word := BitVec.ofNat 32 (es.word a.toNat)

def store (es : Memory) (a : Half) (w : Word) : Memory := es.put 4 a.toNat w.toNat

def Entry.store (e : Entry) (di : Half) (es : Memory) : Memory :=
  let es := Primer2.store es di e.baseLow
  let es := Primer2.store es (di + 4) e.baseHigh
  let es := Primer2.store es (di + 8) e.lengthLow
  let es := Primer2.store es (di + 12) e.lengthHigh
  let es := Primer2.store es (di + 16) e.type
  e.attributes.elim es (Primer2.store es (di + 20))

def asciz (s : String) : List UInt8 := s.toList.map Char.toUInt8 ++ [0]

def msgWelcome : List UInt8 := asciz "MemOS: Welcome *** System Memory is: "
def msgUnits : List UInt8 := asciz " MB\r\n"
def msgAddrRange : List UInt8 := asciz "Address range ["
def msgStatus : List UInt8 := asciz "] status: "
def typeUsable : List UInt8 := asciz "USABLE RAM\r\n"
def typeReserved : List UInt8 := asciz "RESERVED\r\n"
def typeAcpiReclaimable : List UInt8 := asciz "ACPI RECLAIMABLE MEMORY\r\n"
def typeAcpiNvs : List UInt8 := asciz "ACPI NVS MEMORY\r\n"
def typeBadmem : List UInt8 := asciz "BAD MEMORY\r\n"

-- `int $0x10` with `0x0E` in `ah`.
def teletype (al : UInt8) (m : Machine) : Machine := { m with screen := m.screen ++ [al] }

def printStr (s : List UInt8) (m : Machine) : Machine := s.foldl (fun m al => teletype al m) m

def loopDiv : ℕ → Word → Half → List Word → Option (Half × List Word)
  | 0, _, _, _ => none
  | fuel + 1, eax, cx, stack =>
    let edx := eax % 10
    let eax := eax / 10
    if eax ≠ 0 then loopDiv fuel eax (cx + 1) (edx :: stack) else some (cx + 1, edx :: stack)

def ascii (edx : Word) : UInt8 := ⟨(edx.setWidth 16 + 48).setWidth 8⟩

def loopPrint : ℕ → Half → Machine → Option Machine
  | 0, _, _ => none
  | fuel + 1, cx, m =>
    match m.stack with
    | [] => none
    | edx :: stack =>
      let m := teletype (ascii edx) { m with stack := stack }
      if cx - 1 ≠ 0 then loopPrint fuel (cx - 1) m else some m

def printNum (eax : Word) (m : Machine) : Option Machine := do
  let (cx, stack) ← loopDiv 32 eax 0 m.stack
  loopPrint (2 ^ 16) cx { m with stack := stack }

def typeName (ax : Half) : Option (List UInt8) :=
  if ax = 1 then some typeUsable
  else if ax = 2 then some typeReserved
  else if ax = 3 then some typeAcpiReclaimable
  else if ax = 4 then some typeAcpiNvs
  else if ax = 5 then some typeBadmem
  else none

-- From `.print_start` to `hlt`.
def printStart : ℕ → Machine → Option Machine
  | 0, _ => none
  | fuel + 1, m => do
    let m := printStr msgAddrRange m
    let eax := load m.es m.di
    let m ← printNum eax m
    let m := teletype ':'.toUInt8 m
    let eax := eax + load m.es (m.di + 8) - 1
    let m ← printNum eax m
    let m := printStr msgStatus m
    match typeName ((load m.es (m.di + 16)).setWidth 16) with
    | none => some m
    | some name =>
      let m := printStr name m
      let m := { m with bp := m.bp - 1, di := m.di + 24 }
      if m.bp ≠ 0 then printStart fuel m else some m

def printRegion (m : Machine) : Option Machine :=
  match m.stack with
  | [] => none
  | ecx :: stack => do
    let m ← printNum (ecx >>> 20) { m with stack := stack }
    let m := printStr msgUnits m
    printStart (2 ^ 16) { m with di := 0 }

def smap : Word := 0x534D4150

/-- The machine stops at `end` if the BIOS has failed; the answers do not run out before it says that it is done. -/
def doE820 : List Answer → Machine → Option Machine
  | [], _ => none
  | a :: answers, m =>
    let m := { m with es := a.entry.store m.di m.es }
    if a.carry then some m
    else if a.edx ≠ smap then some m
    else
      let m := { m with bp := m.bp + 1 }
      if a.ebx = 0 then printRegion m
      else if (load m.es (m.di + 16)).setWidth 16 = (1 : Half) then
        match m.stack with
        | [] => none
        | ecx :: stack =>
          doE820 answers { m with stack := (ecx + load m.es (m.di + 8)) :: stack, di := m.di + 24 }
      else doE820 answers { m with di := m.di + 24 }

def memos1 (es : Memory) (answers : List Answer) : Option Machine :=
  let m := printStr msgWelcome ⟨0, 0, [], es, []⟩
  doE820 answers { m with stack := [0] }

end MemeOS.Primer2
