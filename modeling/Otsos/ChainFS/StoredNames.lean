import Mathlib.Data.List.TakeWhile
import Otsos.ChainFS.TableEdits

/-!
# The names in the table

An entry has room for 30 characters.  A write cuts its name after 29 of them,
and a directory of 30 or 31 characters is terminated by its size field, so the
name of a live entry can be read back in every reachable state.
-/

namespace Otsos

open Lib

variable {g : Geometry} {s s' s₀ : ChainFS} {d d' : ℕ → Memory}
  {m m' : Memory} {i j idx size start parent : ℕ} {name cs : List UInt8}
  {call : FsCall} {code : ℤ} {hist : List (FsCall × ℤ)}

theorem cname_eq (hnul : 0 ∉ cs) (hlen : cs.length ≤ 30)
    (hchars : ∀ k (hk : k < cs.length), m (sizeofFileEntry * i + 2 + k) = cs[k])
    (hend : cs.length < 30 → m (sizeofFileEntry * i + 2 + cs.length) = 0) :
    (entryAt m i).cname = cs := by
  have hname : (entryAt m i).name =
      cs ++ (entryAt m i).name.drop cs.length := by
    have htake : (entryAt m i).name.take cs.length = cs := by
      apply List.ext_getElem
      · simp [entryAt]
        omega
      · intro k hk hk'
        simp only [entryAt, List.getElem_take, List.getElem_map,
          List.getElem_range]
        exact hchars k hk'
    conv_lhs => rw [← List.take_append_drop cs.length (entryAt m i).name]
    rw [htake]
  rw [FileEntry.cname, hname, List.takeWhile_append_of_pos]
  · have hrest : ((entryAt m i).name.drop cs.length).takeWhile (· ≠ 0) =
        [] := by
      by_cases hfull : cs.length < 30
      · have hcons : (entryAt m i).name.drop cs.length =
            0 :: (entryAt m i).name.drop (cs.length + 1) := by
          rw [List.drop_eq_getElem_cons (by simpa [entryAt] using hfull)]
          congr 1
          simp only [entryAt, List.getElem_map, List.getElem_range]
          exact hend hfull
        rw [hcons]
        simp
      · rw [List.drop_of_length_le (by simp [entryAt]; omega)]
        rfl
    rw [hrest, List.append_nil]
  · intro c hc
    simp only [ne_eq, decide_not, Bool.not_eq_eq_eq_not, Bool.not_true,
      decide_eq_false_iff_not]
    rintro rfl
    exact hnul hc

theorem cname_no_nul (e : FileEntry) : 0 ∉ e.cname := by
  intro hmem
  have htest := List.mem_takeWhile_imp hmem
  simp at htest

/-- The name ends before the first block, or where it begins. -/
def Terminated (m : Memory) (i : ℕ) : Prop :=
  ∃ k ≤ 30, m (sizeofFileEntry * i + 2 + k) = 0

theorem Terminated.congr (h : Terminated m i) (hsame : SameBytes m i m' j) :
    Terminated m' j := by
  obtain ⟨k, hk, hzero⟩ := h
  have hbyte := hsame (2 + k) (by unfold sizeofFileEntry; omega)
  simp only [← Nat.add_assoc] at hbyte
  exact ⟨k, hk, by rw [hbyte, hzero]⟩

/-- A terminated name compares equal to what is read back of it. -/
theorem Terminated.strcmpEq_cname (h : Terminated m i) :
    strcmpEq m (sizeofFileEntry * i + 2) (entryAt m i).cname = true := by
  have hexists : ∃ k, m (sizeofFileEntry * i + 2 + k) = 0 := by
    obtain ⟨k, -, hzero⟩ := h
    exact ⟨k, hzero⟩
  -- the characters before the first zero
  let n := Nat.find hexists
  have hend : m (sizeofFileEntry * i + 2 + n) = 0 := Nat.find_spec hexists
  have hn : n ≤ 30 := by
    obtain ⟨k, hk, hzero⟩ := h
    exact (Nat.find_min' hexists hzero).trans hk
  let cs := (List.range n).map fun k => m (sizeofFileEntry * i + 2 + k)
  have hlen : cs.length = n := by simp [cs]
  have hnul : 0 ∉ cs := by
    intro hmem
    obtain ⟨k, hk, hzero⟩ := List.mem_map.mp hmem
    exact Nat.find_min hexists (List.mem_range.mp hk) hzero
  have hchars : ∀ k (hk : k < cs.length),
      m (sizeofFileEntry * i + 2 + k) = cs[k] := by
    intro k hk
    simp [cs]
  have hcname : (entryAt m i).cname = cs :=
    cname_eq hnul (by omega) hchars fun _ => by rw [hlen, hend]
  rw [hcname, strcmpEq_iff]
  exact ⟨hchars, by rw [hlen, hend]⟩

/-! ## The names that are stored -/

theorem setFileEntry_char {k : ℕ} (hk : k < (name.take 29).length) :
    setFileEntry m i name size start parent (sizeofFileEntry * i + 2 + k) =
      (name.take 29)[k] := by
  have hlen : (name.take 29).length ≤ 29 := List.length_take_le 29 _
  simp only [setFileEntry]
  rw [Memory.store_outside _ _ (by omega), Memory.store_outside _ _ (by omega),
    Memory.store_outside _ _ (by omega)]
  exact copyChars_inside _ hk

theorem setFileEntry_nul {k : ℕ} (hlow : (name.take 29).length ≤ k)
    (hk : k < 30) :
    setFileEntry m i name size start parent (sizeofFileEntry * i + 2 + k) =
      0 := by
  simp only [setFileEntry]
  rw [Memory.store_outside _ _ (by omega), Memory.store_outside _ _ (by omega),
    Memory.store_outside _ _ (by omega), copyChars_outside _ (by omega)]
  exact copyBytes_inside _ _ hk

theorem setDirEntry_char {k : ℕ} (hk : k < name.length) (hk' : k < 30) :
    setDirEntry m i name parent (sizeofFileEntry * i + 2 + k) = name[k] := by
  simp only [setDirEntry, strcpy_eq]
  rw [Memory.store_outside _ _ (by omega), Memory.store_outside _ _ (by omega),
    Memory.store_outside _ _ (by omega), copyChars_inside _ (by simp; omega)]
  exact List.getElem_append_left hk

theorem setDirEntry_nul (hshort : name.length < 30) :
    setDirEntry m i name parent (sizeofFileEntry * i + 2 + name.length) =
      0 := by
  simp only [setDirEntry, strcpy_eq]
  rw [Memory.store_outside _ _ (by omega), Memory.store_outside _ _ (by omega),
    Memory.store_outside _ _ (by omega), copyChars_inside _ (by simp)]
  simp

/-- The size field of a directory terminates a long name. -/
theorem setDirEntry_size_byte :
    setDirEntry m i name parent (sizeofFileEntry * i + 2 + 30) = 0 := by
  simp only [setDirEntry]
  rw [Memory.store_outside _ _ (by omega), Memory.store_outside _ _ (by omega)]
  have hbyte := (strcpy
    ((m.set (sizeofFileEntry * i) 1).set (sizeofFileEntry * i + 1)
      chainfsTypeDir) (sizeofFileEntry * i + 2) name).store_inside
    (a := sizeofFileEntry * i + 32) (n := 4) 0 (show 0 < 4 by omega)
  simp only [Nat.add_zero] at hbyte
  rw [show sizeofFileEntry * i + 2 + 30 = sizeofFileEntry * i + 32 by omega,
    hbyte]
  rfl

theorem setFileEntry_terminated :
    Terminated (setFileEntry m i name size start parent) i :=
  ⟨29, by omega, setFileEntry_nul (List.length_take_le 29 _) (by omega)⟩

theorem setDirEntry_terminated : Terminated (setDirEntry m i name parent) i :=
  ⟨30, by omega, setDirEntry_size_byte⟩

theorem setFileEntry_cname (hnul : 0 ∉ name) :
    (entryAt (setFileEntry m i name size start parent) i).cname =
      name.take 29 := by
  have hlen : (name.take 29).length ≤ 29 := List.length_take_le 29 _
  refine cname_eq (fun hmem => hnul (List.mem_of_mem_take hmem)) (by omega)
    (fun k hk => setFileEntry_char hk) fun hk => setFileEntry_nul le_rfl hk

theorem setDirEntry_cname (hnul : 0 ∉ name) :
    (entryAt (setDirEntry m i name parent) i).cname = name.take 30 := by
  refine cname_eq (fun hmem => hnul (List.mem_of_mem_take hmem))
    (List.length_take_le 30 _) ?_ ?_
  · intro k hk
    rw [List.length_take] at hk
    rw [List.getElem_take]
    exact setDirEntry_char (by omega) (by omega)
  · intro hshort
    rw [List.length_take] at hshort ⊢
    rw [show min 30 name.length = name.length by omega]
    exact setDirEntry_nul (by omega)

/-! ## Every reachable state -/

/-- The names of the live entries can be read back. -/
def NamesTerminated (g : Geometry) (d : ℕ → Memory) : Prop :=
  ∀ idx < g.slots, (entryOf d idx).status = 1 →
    Terminated (d (1 + idx / 8)) (idx % 8)

theorem NamesTerminated.edited {e : TableEdit} (h : NamesTerminated g d)
    (hedited : Edited g d d' e) : NamesTerminated g d' := by
  intro idx hidx hone
  by_cases hslot : idx = e.slot
  · obtain ⟨m, start, hbytes⟩ := hedited.bytes
    rw [hslot]
    cases e with
    | file j name size parent =>
        exact setFileEntry_terminated.congr hbytes
    | directory j name parent =>
        exact setDirEntry_terminated.congr hbytes
    | clear j =>
        rw [hslot, show (TableEdit.clear j).slot = j from rfl,
          hedited.clear_status] at hone
        exact absurd hone (by decide)
  · have hsame := hedited.other idx hidx hslot
    rw [hsame.entryOf_eq] at hone
    exact (h idx hidx hone).congr hsame

theorem NamesTerminated.step (h : NamesTerminated g s.disk)
    (hinv : DiskInvariant g s) (hcall : UnwrappedCall g s call code)
    (hexec : s.exec call = .ok (s', code)) : NamesTerminated g s'.disk := by
  cases hinv.tableStep hcall hexec with
  | edited e hplanned hedited => exact h.edited hedited
  | same hnone hsame =>
      intro idx hidx hone
      rw [(hsame idx hidx).entryOf_eq] at hone
      exact (h idx hidx hone).congr (hsame idx hidx)

theorem NamesTerminated.run (h : NamesTerminated g s₀.disk)
    (hinv : DiskInvariant g s₀)
    (hrun : FsRun (UnwrappedCall g) s₀ hist s) :
    NamesTerminated g s.disk := by
  induction hrun with
  | start => exact h
  | step before ready meets returns ih =>
      refine NamesTerminated.step ?_ ((hinv.run before).withHeap ready)
        meets returns
      exact ih

theorem Formatted.namesTerminated {totalBlocks maxFiles : ℕ}
    (h : Formatted totalBlocks maxFiles s) :
    NamesTerminated (formatGeometry totalBlocks maxFiles) s.disk := by
  obtain ⟨hfresh, -⟩ := h.fresh
  intro idx hidx hone
  by_cases hzero : idx = 0
  · have hsector := Geometry.slot_sector _ hidx
    rw [hzero] at hsector ⊢
    simp only [formatGeometry] at hsector
    refine ⟨1, by omega, ?_⟩
    rw [hfresh.root (by omega)]
    decide +kernel
  · rw [(hfresh.entries hidx).2 hzero] at hone
    exact absurd hone (by decide)

end Otsos
