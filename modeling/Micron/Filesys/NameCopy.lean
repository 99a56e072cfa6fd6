import Micron.Filesys.Readback

/-! # Names on their way into the kernel

`mfs_mkdir` and `mfs_write` accept names of up to `MFS_NAMELEN` bytes. One that fills the
field has no terminator in it: the inode number is stored where `strcpy` put the
terminator, and the kernel copies the number along with the name.
-/
namespace Micron.Filesys
open Function Bytes Kernel Prog

/-- The record holds the name with its terminator. From any cached block with the record
the kernel gives the name to any vnode, and the vnode keeps its device. -/
structure Survives (ip : Mkmfs.Inode) (name : List UInt8) : Prop where
  named : ip.Named name
  copied : ∀ (s : State) (sp : IPtr) (p : VPtr) (dev : UInt32), sp.Reads s.scache (Inode.ofRecord ip) → p.isNode →
    ∃ t, (translate sp dev p).run s = (.ok (),t) ∧ (t.vnode p).str = name ∧ (t.vnode p).dev = dev

theorem survives_of_named {ip : Mkmfs.Inode} {name : List UInt8} (h : ip.Named name) (h0 : 0 ∉ name) :
    Survives ip name := by
  refine ⟨h,fun s sp p dev hsp hp => ?_⟩
  have hfits : (Inode.ofRecord ip).Fits := by
    refine ⟨?_,?_⟩
    · rw [Inode.ofRecord,h.str]
      exact h0
    · rw [Inode.ofRecord,h.str]
      exact h.2
  have hrun : wp (translate sp dev p) (fun _ t => (t.vnode p).str = name ∧ (t.vnode p).dev = dev) (fun _ => False) s := by
    rw [wp_translate hsp rfl hfits hp]
    dsimp only
    rw [update_self,((s.vnode p).fill_shows dev hfits).str]
    exact ⟨h.str,rfl⟩
  obtain ⟨⟨⟩,t,ht,hq⟩ := hrun.run
  exact ⟨t,ht,hq⟩

theorem exec_name {clock : ℕ → UInt32} {c : Mkmfs.Call} {im im' : Mkmfs.Image} (h : c.exec clock im = .ok im') :
    ∃ k, Mkmfs.mfsSeekbmp im.ibmp (Mkmfs.MFS_BLKSIZE * Mkmfs.NIBMP) 0 (Mkmfs.MFS_BLKSIZE * 8) = .ok (some k) ∧
      (im'.iblk k).name = Bytes.strcpy (im.iblk k).name c.name := by
  have hlink : ∀ (k p : ℕ) (ip : Mkmfs.Inode), ((im.link k p ip).iblk k).name = ip.name := by
    intro k p ip
    simp only [Mkmfs.Image.link]
    by_cases hkp : k = p
    · subst hkp
      rw [update_self,update_self]
    · rw [update_of_ne hkp,update_self]
  cases c with
  | mkdir path name =>
    obtain ⟨-,p,k,-,hk,rfl⟩ := Mkmfs.mfsMkdir_ok_iff.mp h
    exact ⟨k,hk,hlink k p _⟩
  | write path name buff =>
    obtain ⟨-,p,k,d,bmp,dblk,-,-,hk,-,-,rfl⟩ := Mkmfs.mfsWrite_ok_iff.mp h
    exact ⟨k,hk,hlink k p _⟩

/-- A name that one of the two calls has accepted survives exactly if it is shorter than
the field, whichever inode it is given. -/
theorem accepted_name_survives_iff (clock : ℕ → UInt32) (c : Mkmfs.Call) (im im' : Mkmfs.Image) (h0 : 0 ∉ c.name)
    (h : c.exec clock im = .ok im') :
    ∃ k, Mkmfs.mfsSeekbmp im.ibmp (Mkmfs.MFS_BLKSIZE * Mkmfs.NIBMP) 0 (Mkmfs.MFS_BLKSIZE * 8) = .ok (some k) ∧
      (Survives (im'.iblk k) c.name ↔ c.name.length < Mkmfs.MFS_NAMELEN) := by
  obtain ⟨k,hk,hname⟩ := exec_name h
  refine ⟨k,hk,fun hs => hs.named.2,fun hlt => survives_of_named ⟨?_,hlt⟩ h0⟩
  rw [hname]
  exact cstr_strcpy _ h0 hlt

/-- The first directory of a new image gets inode 1. -/
theorem new_mkdir {name : List UInt8} (h : name.length ≤ Mkmfs.MFS_NAMELEN) :
    (Mkmfs.Call.mkdir [47] name).exec (fun _ => 0) Mkmfs.mfsNew =
      .ok (Mkmfs.mfsNew.link 1 0 (Mkmfs.dirInode (fun _ => 0) Mkmfs.mfsNew name 1 0)) :=
  Mkmfs.mfsMkdir_ok_iff.mpr ⟨h,0,1,rfl,by decide +kernel,rfl⟩

/-- A directory with a name of 67 bytes. -/
theorem accepted_name_survives_67 : ∃ im' k,
    (Mkmfs.Call.mkdir [47] (List.replicate 67 97)).exec (fun _ => 0) Mkmfs.mfsNew = .ok im' ∧
      Survives (im'.iblk k) (List.replicate 67 97) := by
  obtain ⟨k,-,hk⟩ := accepted_name_survives_iff (fun _ => 0) (.mkdir [47] (List.replicate 67 97)) Mkmfs.mfsNew _
    (by decide) (new_mkdir (by decide))
  exact ⟨_,k,new_mkdir (by decide),hk.mpr (by decide)⟩

/-- A name of 68 bytes. The string of the record goes on with the byte 1 of the inode number,
and the kernel stores it with a terminator over the lower half of the device. -/
theorem accepted_name_of_68_bytes : ∃ im',
    (Mkmfs.Call.mkdir [47] (List.replicate 68 97)).exec (fun _ => 0) Mkmfs.mfsNew = .ok im' ∧
      ¬ Survives (im'.iblk 1) (List.replicate 68 97) ∧ (im'.iblk 1).str = List.replicate 68 97 ++ [1] ∧
      (Vnode.strcpy { Vnode.zero with dev := 0x102 } (im'.iblk 1).str).map (fun v => (v.str,v.dev)) =
        some (List.replicate 68 97 ++ [1],1) := by
  refine ⟨_,new_mkdir (by decide),fun hs => absurd hs.named.2 (by decide),?_,?_⟩
  · decide +kernel
  · decide +kernel

end Micron.Filesys
