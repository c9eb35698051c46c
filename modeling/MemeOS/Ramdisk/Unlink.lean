import MemeOS.Ramdisk.Sweep

/-! What `rd_unlink` removes. -/

namespace MemeOS.Ramdisk

open Lib Stdlib

section

variable {base : ℕ} {m m' : Memory} {T : FdTable} {path : CString} {D i k : ℕ} {r : ℤ}

end

def namedA (k : ℕ) : Memory :=
  entered (claimed 0x100000 freshState.mem k inodeReg) (rootBlk 0x100000) [97] k

end MemeOS.Ramdisk
