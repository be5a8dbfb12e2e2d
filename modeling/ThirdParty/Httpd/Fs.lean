import ThirdParty.Lib.Bytes

/-!
# `Httpd.Fs` — the ROM file system (`fs.c`)

`fs_memory` is a fixed table of open files; a `struct fs_file *` is an index into it. `FS_ROOT` is the linked
list of generated `fsdata_file` records, here a list.
-/

namespace ThirdParty.Httpd

open Lib

/-- `struct fs_file` (`pextension` is only ever set to `NULL`). -/
structure FsFile where
  data  : Nat
  len   : Nat
  index : Nat
  deriving DecidableEq, Repr

/-- `struct fs_table`. -/
structure FsTable where
  file  : FsFile
  inuse : Bool
  deriving DecidableEq, Repr

/-- `fs_memory[LWIP_MAX_OPEN_FILES]`. -/
abbrev FsMemory := List FsTable

/-- `struct fsdata_file`; `len` is a non-negative `int`. -/
structure FsDataFile where
  name   : List Byte
  data   : Nat
  len    : Nat
  len_lt : len < 2147483648 := by decide
  deriving DecidableEq, Repr

/-- `fs_malloc`: takes the first free slot. -/
def fsMalloc : FsMemory → Option (Nat × FsMemory)
  | []      => none
  | t :: ts =>
      if t.inuse = false then some (0, { t with inuse := true } :: ts)
      else (fsMalloc ts).map fun (i, ts') => (i + 1, t :: ts')

/-- `fs_free`. -/
def fsFree (m : FsMemory) (i : Nat) : FsMemory := m.modify i fun t => { t with inuse := false }

/-- `fs_open`. -/
def fsOpen (root : List FsDataFile) (m : FsMemory) (name : List Byte) : Option Nat × FsMemory :=
  match fsMalloc m with
  | none => (none, m)
  | some (i, m) =>
      match root.find? fun f => f.name = name with
      | some f => (some i, m.modify i fun t => { t with file := ⟨f.data, f.len, f.len⟩ })
      | none   => (none, fsFree m i)

/-- `fs_close`. -/
def fsClose (m : FsMemory) (i : Nat) : FsMemory := fsFree m i

/-- The file behind a handle. -/
def fsFile (m : FsMemory) (i : Nat) : FsFile := ((m[i]?).map FsTable.file).getD ⟨0, 0, 0⟩

/-- `memcpy(dst, src, n)`. -/
def memcpy (m : Mem) (dst src n : Nat) : Mem := fun a => if dst ≤ a ∧ a < dst + n then m (src + (a - dst)) else m a

/-- `fs_read`: `-1` at the end of the file, else the number of bytes copied to `buffer`. -/
def fsRead (m : FsMemory) (mem : Mem) (i : Nat) (buffer : Nat) (count : Nat) : Int × FsMemory × Mem :=
  let f := fsFile m i
  if f.index = f.len then (-1, m, mem)
  else
    let read := if f.len - f.index > count then count else f.len - f.index
    (read, m.modify i fun t => { t with file := { t.file with index := f.index + read } },
      memcpy mem buffer (f.data + f.index) read)

/-! ## Which slots are in use -/

/-- Slot `i` is in use. -/
def FsInUse (m : FsMemory) (i : Nat) : Prop := ∃ t, m[i]? = some t ∧ t.inuse = true

/-- Some slot is free. -/
def FsHasFree (m : FsMemory) : Prop := ∃ t ∈ m, t.inuse = false

instance (m : FsMemory) : Decidable (FsHasFree m) := by unfold FsHasFree; infer_instance

/-- **What `fs_malloc` does.** It hands out a slot that was free and marks that slot alone. -/
theorem fsMalloc_spec : ∀ {m m' : FsMemory} {i : Nat}, fsMalloc m = some (i, m') →
    ∃ t, m[i]? = some t ∧ t.inuse = false ∧ m' = m.modify i fun t => { t with inuse := true }
  | t :: ts, m', i, h => by
      unfold fsMalloc at h
      by_cases ht : t.inuse = false
      · rw [if_pos ht] at h
        obtain ⟨rfl, rfl⟩ := Prod.mk.inj (Option.some.inj h)
        exact ⟨t, rfl, ht, rfl⟩
      · rw [if_neg ht] at h
        obtain ⟨⟨j, ts'⟩, hrec, heq⟩ := Option.map_eq_some_iff.mp h
        obtain ⟨rfl, rfl⟩ := Prod.mk.inj heq
        obtain ⟨u, hu, hfree, rfl⟩ := fsMalloc_spec hrec
        exact ⟨u, by simpa using hu, hfree, by simp⟩

/-- `fs_malloc` fails only when every slot is taken. -/
theorem fsMalloc_isSome_iff : ∀ {m : FsMemory}, (fsMalloc m).isSome = true ↔ FsHasFree m
  | [] => by simp [fsMalloc, FsHasFree]
  | t :: ts => by
      have ih := @fsMalloc_isSome_iff ts
      unfold fsMalloc
      by_cases ht : t.inuse = false
      · simp [ht, FsHasFree]
      · rw [if_neg ht, Option.isSome_map, ih]
        simp [FsHasFree, ht]

/-- Freeing the slot just taken gives the table back. -/
theorem fsFree_fsMalloc {m m' : FsMemory} {i : Nat} (h : fsMalloc m = some (i, m')) : fsFree m' i = m := by
  obtain ⟨t, ht, hfree, rfl⟩ := fsMalloc_spec h
  obtain ⟨hi, rfl⟩ := List.getElem?_eq_some_iff.mp ht
  apply List.ext_getElem?
  intro j
  unfold fsFree
  rw [List.getElem?_modify, List.getElem?_modify]
  by_cases hj : i = j
  · subst hj
    rw [List.getElem?_eq_getElem hi]
    simp only [if_true, Option.map_some, Option.map_eq_map]
    rw [← hfree]
  · simp [hj]

/-- **What `fs_open` does.** It opens the first record with the name, on a slot that was free, positioned at
    its end; or it changes nothing. -/
theorem fsOpen_cases (root : List FsDataFile) (m : FsMemory) (name : List Byte) :
    (fsOpen root m name = (none, m) ∧ ¬(FsHasFree m ∧ ∃ f ∈ root, f.name = name)) ∨
    (∃ i f t, fsOpen root m name = (some i, m.modify i fun _ => ⟨⟨f.data, f.len, f.len⟩, true⟩) ∧
      m[i]? = some t ∧ t.inuse = false ∧ root.find? (fun f => f.name = name) = some f) := by
  unfold fsOpen
  cases hm : fsMalloc m with
  | none =>
      refine .inl ⟨rfl, fun h => ?_⟩
      have := fsMalloc_isSome_iff.mpr h.1
      simp [hm] at this
  | some im =>
      obtain ⟨i, m'⟩ := im
      cases hf : root.find? (fun f => f.name = name) with
      | none =>
          refine .inl ⟨by simp [fsFree_fsMalloc hm], fun h => ?_⟩
          obtain ⟨f, hmem, hname⟩ := h.2
          exact absurd hname (by simpa using List.find?_eq_none.mp hf f hmem)
      | some f =>
          obtain ⟨t, ht, hfree, rfl⟩ := fsMalloc_spec hm
          refine .inr ⟨i, f, t, ?_, ht, hfree, rfl⟩
          simp only [Prod.mk.injEq, true_and]
          rw [List.modify_modify_eq]
          rfl

/-- The handle of a file just opened, positioned at the end of the file. -/
theorem fsFile_fsOpen {root : List FsDataFile} {m m' : FsMemory} {f : FsDataFile} {i : Nat}
    (hopen : fsOpen root m f.name = (some i, m')) (hfind : root.find? (fun g => g.name = f.name) = some f) :
    fsFile m' i = ⟨f.data, f.len, f.len⟩ := by
  rcases fsOpen_cases root m f.name with ⟨heq, -⟩ | ⟨j, g, t, heq, ht, -, hg⟩
  · rw [heq] at hopen
    exact absurd (congrArg Prod.fst hopen) (by simp)
  · obtain rfl := Option.some.inj (hg.symm.trans hfind)
    rw [heq] at hopen
    obtain ⟨hj, rfl⟩ := Prod.mk.inj hopen
    obtain rfl := Option.some.inj hj
    simp [fsFile, ht]

end ThirdParty.Httpd
