import Micron.Filesys.Attach
import Micron.Filesys.Bitmap

/-! # An inode table in sectors

Four records to a block, from block 1 of device 0 on, as the disk holds them.
-/
namespace Micron.Filesys
open Function Bytes Kernel Scache Prog

def sectorTable (disk : ℕ → ℕ → UInt8) (count : ℕ) : Table where
  dev := 0
  sb := ⟨0,0,0,0,1,0,0,512⟩
  base := 1
  count := count
  record n := .read (contentOf sectorSizes anyDevs disk 0 (1 + 128 * n / 512 : ℕ)) (n % (512 / 128) * 128)
  used _ := False
  kids _ := []
  exps _ := []

variable {disk : ℕ → ℕ → UInt8} {count n : ℕ}

@[simp] theorem sectorTable_blk : (sectorTable disk count).blk sectorSizes n = 1 + n / 4 := by
  have h : (sectorTable disk count).blk sectorSizes n = 1 + 128 * n / 512 := rfl
  rw [h]
  omega

theorem sectorTable_on {E : Env} (hE : E.devs = anyDevs) (hcount : count ≤ 2 ^ 25) :
    (sectorTable disk count).On E sectorSizes (contentOf sectorSizes anyDevs disk) where
  usable := ⟨show DevOk 0 by decide,by rw [hE]; rfl,show (512 : Int32).toInt = (512 : ℕ) by decide⟩
  len_pos := show 0 < 512 by decide
  base_eq := show (1 : Int32).toInt = (1 : ℕ) by decide
  base_pos := show 0 < 1 by decide
  count_le := hcount
  valid n hn := by
    change n < count at hn
    rw [sectorTable_blk,hE]
    refine ⟨show DevOk 0 by decide,Int.natCast_nonneg _,?_,fun _ => rfl⟩
    dsimp only [BlkSizes.request,sectorSizes]
    rw [show 512 / 512 = 1 from rfl]
    omega
  read _ _ := rfl

end Micron.Filesys
