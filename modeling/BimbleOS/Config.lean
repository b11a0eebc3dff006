/-!
# `Config` — the constants of `config.h` and `status.h`

Only the constants that some modelled function uses are listed. Error codes are positive, as in
`status.h`; a failing function returns the negated code.
-/

namespace BimbleOS

/-! ## `status.h` -/

def bimbleosAllOk : Int := 0
def EIO : Int := 1
def EINVARG : Int := 2
def ENOMEM : Int := 3
def EBADPATH : Int := 4
def EFSNOTUS : Int := 5
def ERDONLY : Int := 6
def EUNIMP : Int := 7
def EISTKN : Int := 8
def EINFORMAT : Int := 9

/-! ## `config.h` -/

/-- `BIMBLEOS_HEAP_SIZE_BYTES`: 100 MB. -/
def bimbleosHeapSizeBytes : Nat := 104857600

def bimbleosHeapBlockSize : Nat := 4096

def bimbleosHeapAddress : Nat := 0x01000000

def bimbleosSectorSize : Nat := 512

def bimbleosMaxPath : Nat := 108

def bimbleosMaxFileDescriptors : Nat := 512

def bimbleosMaxProgramAllocations : Nat := 1024

def bimbleosMaxProcesses : Nat := 12

def bimbleosKeyboardBufferSize : Nat := 1024

/-- Where a program image is mapped: `BIMBLEOS_PROGRAM_VIRTUAL_ADDRESS`. -/
def bimbleosProgramVirtualAddress : Nat := 0x400000

def bimbleosUserProgramStackSize : Nat := 1024 * 16

def bimbleosProgramVirtualStackAddressStart : Nat := 0x3FF000

def bimbleosProgramVirtualStackAddressEnd : Nat :=
  bimbleosProgramVirtualStackAddressStart - bimbleosUserProgramStackSize

def kernalCodeSelector : Nat := 0x08

def kernalDataSelector : Nat := 0x10

/-- The kernel stack of interrupts from user land: `tss.esp0` of `kernel.c`. -/
def tssEsp0 : Nat := 0x600000

def userCodeSegment : Nat := 0x1B

def userDataSegment : Nat := 0x23

end BimbleOS
