import Aesd.SharedHeap

/-!
Loading and unloading the module in a kernel with other users. A load can fail at the device
numbers or at the character device, and gives back what it has got by then.
-/
namespace Aesd.Driver

/-- What the kernel answers while the module is loaded: the error of `alloc_chrdev_region`
or the major number it gives, and the error of `cdev_add`; 0 stands for no error. -/
structure LoadAnswer where
  regionErrno : ℕ
  major : ℕ
  cdevErrno : ℕ

/-- The module with what it shares with the rest of the kernel: the heap, the table of device
numbers and the table of character devices. -/
structure System where
  kernel : Kernel
  aesdMajor : ℕ
  regions : Store Unit
  cdevs : Store Unit
  loaded : Bool

namespace System

/-- `aesd_init_module` with its result. -/
def initModule (s : System) (a : LoadAnswer) : System × ℤ :=
  if a.regionErrno ≠ 0 then ({ s with aesdMajor := 0 }, -a.regionErrno)
  else
    let dev := s.regions.fresh a.major
    let s := { s with
      aesdMajor := dev
      regions := s.regions.set dev ()
      kernel := ⟨aesdInitModule.dev, s.kernel.heap⟩ }
    if a.cdevErrno ≠ 0 then ({ s with regions := s.regions.erase dev }, -a.cdevErrno)
    else ({ s with cdevs := s.cdevs.set dev () }, 0)

/-- `aesd_cleanup_module`: `cdev_del`, the frees and `unregister_chrdev_region`. -/
def cleanupModule (s : System) : Option System :=
  (aesdCleanupModule s.kernel).map (fun k =>
    { s with
      kernel := k
      cdevs := s.cdevs.erase s.aesdMajor
      regions := s.regions.erase s.aesdMajor })

end System

/-- What users do with the module. -/
inductive Action
  | load (a : LoadAnswer)
  | write (call : WriteCall)
  | unload

/-- A load that fails leaves the module unloaded. Only a module that is loaded can be
written to or unloaded, and only one that is not can be loaded. -/
def System.step (s : System) : Action → Option System
  | .load a =>
      if s.loaded then none
      else
        let r := s.initModule a
        some { r.1 with loaded := decide (r.2 = 0) }
  | .write call =>
      if s.loaded then (aesdWrite s.kernel call).map (fun r => { s with kernel := r.kernel })
      else none
  | .unload =>
      if s.loaded then s.cleanupModule.map (fun s' => { s' with loaded := false }) else none

end Aesd.Driver
