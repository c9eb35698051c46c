import MemeOS.Lib.Memory

/-! `sprintf` and `itoa` of `stdlib.c`, `printf` and `putchar` of `kvideo.c`. A format pointer is the list of the bytes
from there to the NUL, which is the last of them. Neither the format nor a string argument lies in what `sprintf` stores
to. -/

namespace MemeOS.Format

open Lib

abbrev Word := BitVec 32

def bytes (s : String) : List UInt8 := s.toList.map Char.toUInt8

inductive Overrun
  | beyond | diverges
  deriving DecidableEq

def next : List UInt8 → Except Overrun (UInt8 × List UInt8)
  | [] => .error .beyond
  | c :: format => .ok (c, format)

def int (c : UInt8) : Word := c.toBitVec.signExtend 32

def char (w : Word) : UInt8 := ⟨w.setWidth 8⟩

/-- A word of the caller's argument area, and the C string in front of its NUL where the word is the address of one. -/
structure Arg where
  word : Word
  text : List UInt8
  nonzero : 0 ∉ text

def digit (remainder : ℕ) : UInt8 :=
  if remainder < 10 then UInt8.ofNat (remainder + 48) else UInt8.ofNat (remainder + 97 - 10)

def digitLoop (divisor : ℕ) : ℕ → ℕ → List UInt8
  | 0, _ => []
  | fuel + 1, ud => digit (ud % divisor) :: if ud / divisor = 0 then [] else digitLoop divisor fuel (ud / divisor)

def itoa (base : UInt8) (d : Word) : List UInt8 :=
  if base = 'd'.toUInt8 ∧ d.toInt < 0 then '-'.toUInt8 :: (digitLoop 10 32 (-d).toNat).reverse
  else if base = 'x'.toUInt8 then (digitLoop 16 32 d.toNat).reverse
  else (digitLoop 10 32 d.toNat).reverse

structure Directive where
  pad0 : Bool
  pad : ℕ
  conv : UInt8

def directive (format : List UInt8) : Except Overrun (Directive × List UInt8) := do
  let (c, format) ← next format
  let (pad0, c, format) ← if c = '0'.toUInt8 then (fun r => (true, r)) <$> next format else pure (false, c, format)
  let (pad, c, format) ←
    if '0'.toUInt8 ≤ c ∧ c ≤ '9'.toUInt8 then (fun r => ((c - '0'.toUInt8).toNat, r)) <$> next format
    else pure (0, c, format)
  return (⟨pad0, pad, c⟩, format)

-- The part of the `switch` under the label `string`.
def padded (d : Directive) (p : List UInt8) : List UInt8 :=
  List.replicate (d.pad - p.length) (if d.pad0 then '0'.toUInt8 else ' '.toUInt8) ++ p

def null : List UInt8 := bytes "(null)"

def conversion (d : Directive) (arg : Arg) : List Word :=
  if d.conv = 'd'.toUInt8 ∨ d.conv = 'u'.toUInt8 ∨ d.conv = 'x'.toUInt8 then
    (padded d (itoa d.conv arg.word)).map int
  else if d.conv = 's'.toUInt8 then (padded d (if arg.word = 0 then null else arg.text)).map int
  else [arg.word]

section

variable {σ : Type} (put : Word → σ → σ) (special : UInt8 → Bool)
  (escape : List UInt8 → σ → Except Overrun (List UInt8 × σ))

def formatLoop : ℕ → List UInt8 → (ℕ → Arg) → σ → Except Overrun σ
  | 0, _, _, _ => .error .diverges
  | fuel + 1, format, args, s => do
    let (c, format) ← next format
    if c = 0 then
      return s
    if special c then
      let (format, s) ← escape format s
      formatLoop fuel format args s
    else if c ≠ '%'.toUInt8 then
      formatLoop fuel format args (put (int c) s)
    else
      let (d, format) ← directive format
      formatLoop fuel format (fun i => args (i + 1)) ((conversion d (args 0)).foldl (fun s w => put w s) s)

end

def store (w : Word) (s : Memory × ℕ) : Memory × ℕ := (Function.update s.1 s.2 (char w), s.2 + 1)

-- The format up to its NUL, and the words that follow it on the stack.
def sprintf (m : Memory) (dest : ℕ) (format : List UInt8) (args : ℕ → Arg) : Except Overrun Memory :=
  Prod.fst <$> formatLoop store (fun _ => false) (fun format s => .ok (format, s)) (format.length + 1) (format ++ [0])
    args (m, dest)

def columns : ℕ := 80
def lines : ℕ := 25

-- `ATTRIBUTE`, the cursor, and the bytes of the video memory.
structure Terminal where
  attrib : UInt8
  xpos : ℕ
  ypos : ℕ
  video : Memory

def blank (ypos : ℕ) : ℕ → ℕ → Memory → Memory
  | 0, _, video => video
  | k + 1, xpos, video => blank ypos k (xpos + 1) (Function.update video ((xpos + ypos * columns) * 2) ' '.toUInt8)

def newline (t : Terminal) : Terminal :=
  { t with
    xpos := 0, ypos := if t.ypos + 1 ≥ lines then 0 else t.ypos + 1
    video := blank t.ypos (columns - t.xpos) t.xpos t.video }

def putchar (c : Word) (t : Terminal) : Terminal :=
  if c = int '\n'.toUInt8 ∨ c = int '\r'.toUInt8 then newline t
  else
    let video := Function.update t.video ((t.xpos + t.ypos * columns) * 2) (char c)
    let video := Function.update video ((t.xpos + t.ypos * columns) * 2 + 1) t.attrib
    let t := { t with video := video, xpos := t.xpos + 1 }
    if t.xpos ≥ columns then newline t else t

def colorLut : List UInt8 := [0x0, 0x4, 0x2, 0x6, 0x1, 0x5, 0x3, 0x7, 0x8, 0xC, 0xA, 0xE, 0x9, 0xD, 0xB, 0xF]

lemma putchar_attrib (c : Word) (t : Terminal) : (putchar c t).attrib = t.attrib := by
  simp only [putchar]
  split_ifs <;> rfl

def terminalChangeAttrib (code : Word) (t : Terminal) : Terminal :=
  if 30 ≤ code.toInt ∧ code.toInt ≤ 37 then
    { t with attrib := (t.attrib &&& 0xF0) + colorLut.getD (code.toInt - 30).toNat 0 }
  else if 40 ≤ code.toInt ∧ code.toInt ≤ 47 then
    { t with attrib := (t.attrib &&& (0x0F : UInt8)) + (colorLut.getD (code.toInt - 40).toNat 0 <<< 4) }
  else if 90 ≤ code.toInt ∧ code.toInt ≤ 97 then
    { t with attrib := (t.attrib &&& 0xF0) + colorLut.getD (code.toInt - 82).toNat 0 }
  else if 100 ≤ code.toInt ∧ code.toInt ≤ 107 then
    { t with attrib := (t.attrib &&& (0x0F : UInt8)) + (colorLut.getD (code.toInt - 92).toNat 0 <<< 4) }
  else t

def addDigit (code : Word) (c : UInt8) : Word := (code <<< 3) + (code <<< 1) + (int c - int '0'.toUInt8)

-- The inner loop over the characters of one code.
def codeLoop (code : Word) (c : UInt8) : List UInt8 → Except Overrun (Word × UInt8 × List UInt8)
  | [] => if c ≠ ';'.toUInt8 ∧ c ≠ 'm'.toUInt8 then .error .beyond else .ok (code, c, [])
  | b :: format =>
    if c ≠ ';'.toUInt8 ∧ c ≠ 'm'.toUInt8 then codeLoop (addDigit code c) b format else .ok (code, c, b :: format)

-- The outer loop, `c` being the last character read.
def sequenceLoop : ℕ → UInt8 → List UInt8 → Terminal → Except Overrun (List UInt8 × Terminal)
  | 0, _, _, _ => .error .diverges
  | fuel + 1, c, format, t => do
    if c = 'm'.toUInt8 then
      return (format, t)
    let (c, format) ← next format
    let (code, c, format) ← codeLoop 0 c format
    sequenceLoop fuel c format (terminalChangeAttrib code t)

def escape (format : List UInt8) (t : Terminal) : Except Overrun (List UInt8 × Terminal) := do
  let (c, format) ← next format
  if c = '['.toUInt8 then sequenceLoop (format.length + 1) c format t else return (format, t)

def printf (format : List UInt8) (args : ℕ → Arg) (t : Terminal) : Except Overrun Terminal :=
  formatLoop putchar (· = 27) escape (format.length + 1) (format ++ [0]) args t

end MemeOS.Format
