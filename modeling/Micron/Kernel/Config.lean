import Mathlib.Data.Nat.Notation

/-! # Kernel limits

The constants of `include/arch-i386/config.h` and the flag values of
`include/scache.h` and `include/vnode.h` that the modelled functions read.
-/
namespace Micron.Kernel

def NCHRDEVS : ℕ := 16
def NBLKDEVS : ℕ := 16
def NBLKENTS : ℕ := 8
def NMXBLKSZ : ℕ := 4096
def NVNAMLEN : ℕ := 68
def NVFSMNTS : ℕ := 8
def NVCHCNTS : ℕ := 4096
def NSECACHS : ℕ := 512
def NMXOFILE : ℕ := 128

end Micron.Kernel
