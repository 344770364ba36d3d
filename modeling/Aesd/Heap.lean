import Aesd.Store

/-!
A heap of byte blocks with the allocator calls of a kernel. The environment
decides whether an allocation fails, where a block is placed and what its new
bytes hold before they are written. An access outside an allocated block, or
the release of a block that is not allocated, has no result.
-/
namespace Aesd

abbrev Heap (β : Type*) := Store (List β)

namespace Heap

variable {β : Type*}

/-- The bytes of a block after a change of its length: the old bytes that
still fit, then unspecified ones. -/
def resize (old : List β) (n : ℕ) (stale : ℕ → β) : List β :=
  old.take n ++ (List.range (n - old.length)).map stale

def kmalloc (h : Heap β) (n : ℕ) (pick : Option ℕ) (stale : ℕ → β) : Heap β × Option ℕ :=
  match pick with
  | none => (h, none)
  | some b => (h.set (h.fresh b) (resize [] n stale), some (h.fresh b))

/-- A failed call has no effect. Otherwise the block keeps its place or moves,
and a block that moves is released at its old place. -/
def krealloc (h : Heap β) (p n : ℕ) (pick : Option ℕ) (stale : ℕ → β) :
    Option (Heap β × Option ℕ) :=
  match h.data p, pick with
  | none, _ => none
  | some _, none => some (h, none)
  | some old, some b =>
      let q := if b = p then p else h.fresh b
      some ((h.erase p).set q (resize old n stale), some q)

def kfree (h : Heap β) : Option ℕ → Option (Heap β)
  | none => some h
  | some p => if (h.data p).isSome then some (h.erase p) else none

def read (h : Heap β) (p off n : ℕ) : Option (List β) :=
  (h.data p).bind (fun block =>
    if off + n ≤ block.length then some ((block.drop off).take n) else none)

def write (h : Heap β) (p off : ℕ) (bytes : List β) : Option (Heap β) :=
  (h.data p).bind (fun block =>
    if off + bytes.length ≤ block.length then
      some (h.set p (block.take off ++ bytes ++ block.drop (off + bytes.length)))
    else none)

theorem length_resize (old : List β) (n : ℕ) (stale : ℕ → β) :
    (resize old n stale).length = n := by
  simp [resize]
  omega

/-- The bytes that fit into both blocks stay in front. -/
theorem take_resize (old : List β) (n m : ℕ) (stale : ℕ → β) (hold : m ≤ old.length)
    (hnew : m ≤ n) : (resize old n stale).take m = old.take m := by
  have hfront : m ≤ (old.take n).length := by
    rw [List.length_take]
    omega
  rw [resize, List.take_append_of_le_length hfront, List.take_take, Nat.min_eq_left hnew]

/-- Writing exactly behind the first `off` bytes of a block that ends with the
written bytes leaves those bytes and nothing else. -/
theorem write_tail (h : Heap β) (p off : ℕ) (block bytes : List β)
    (hp : h.data p = some block) (hlen : block.length = off + bytes.length) :
    h.write p off bytes = some (h.set p (block.take off ++ bytes)) := by
  have hrest : block.drop (off + bytes.length) = [] := List.drop_eq_nil_of_le (by omega)
  simp [write, hp, hlen, hrest]

/-- Whether a write stays inside its block depends only on the number of bytes. -/
theorem write_isSome_of_length_eq {h h' : Heap β} {p off : ℕ} {xs ys : List β}
    (hwrite : h.write p off xs = some h') (hlen : ys.length = xs.length) :
    (h.write p off ys).isSome = true := by
  obtain ⟨block, hp, hfits⟩ := Option.bind_eq_some_iff.mp hwrite
  obtain ⟨hle, _⟩ := Option.ite_none_right_eq_some.mp hfits
  rw [write, hp, Option.bind_some, if_pos (by rw [hlen]; exact hle)]
  rfl

theorem read_eq_some_iff (h : Heap β) (p off n : ℕ) (bytes : List β) :
    h.read p off n = some bytes ↔ ∃ block, h.data p = some block ∧
      off + n ≤ block.length ∧ bytes = (block.drop off).take n := by
  simp only [read, Option.bind_eq_some_iff, Option.ite_none_right_eq_some, Option.some.injEq]
  constructor
  · rintro ⟨block, hp, hle, rfl⟩
    exact ⟨block, hp, hle, rfl⟩
  · rintro ⟨block, hp, hle, rfl⟩
    exact ⟨block, hp, hle, rfl⟩

/-- Exactly the named block is gone after a release. -/
theorem kfree_data {h h' : Heap β} {ptr : Option ℕ} (hfree : h.kfree ptr = some h') (b : ℕ) :
    h'.data b = if ptr = some b then none else h.data b := by
  cases ptr with
  | none =>
    cases hfree
    simp
  | some p =>
    obtain ⟨_, heq⟩ := Option.ite_none_right_eq_some.mp hfree
    cases Option.some.inj heq
    by_cases hb : b = p
    · subst hb
      simp
    · have hne : ¬ some p = some b := fun heq => hb (Option.some.inj heq).symm
      rw [if_neg hne, Store.data_erase_of_ne _ hb]

/-- Reading a whole block returns its bytes. -/
theorem read_all (h : Heap β) (p : ℕ) (block : List β) (hp : h.data p = some block) :
    h.read p 0 block.length = some block := by
  simp [read, hp]

end Heap

end Aesd
