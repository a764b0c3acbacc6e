import Otsos.ChainFS.Accounts

/-!
# What a write is going to do

Up to the allocation a write only reads, apart from the blocks it gives back.
The plan of a write is what it has decided by then; the rest is the allocation
and, if there is room, the storing of the file at the planned place.
-/

namespace Otsos

open Lib

variable {g : Geometry} {s s' s₁ : ChainFS} {d d' : ℕ → Memory}
  {path : List UInt8} {data : Memory} {size : ℕ}

/-- The sector and the offset of the entry. -/
def Target.position : Target → ℕ × ℕ
  | .slot idx => slotOf idx
  | .rootBlock => (0, 0)

@[simp] theorem Target.found_position (d : ℕ → Memory) (t : Target) :
    ((t.found d).block, (t.found d).offset) = t.position := by
  cases t <;> rfl

structure WritePlan where
  target : Target
  fileName : List UInt8
  parent : ℕ
  freed : List ℕ

/-- The decisions of `chainfs_write_file`; `none` when it gives up. -/
def writePlan (g : Geometry) (s : ChainFS) (path : List UInt8) :
    Except Fault (Option WritePlan) :=
  match splitParent path with
  | .error fault => .error fault
  | .ok (parent, fileName) =>
      match writeParentId g s.disk s.currentDirBlock parent with
      | none => .ok none
      | some parentBlock =>
          match s.find g path with
          | some t =>
              match released g s.disk (t.found s.disk).entry.startBlock with
              | none => .error .hang
              | some freed => .ok (some ⟨t, fileName, parentBlock, freed⟩)
          | none =>
              match freeSlot g s.disk with
              | none => .ok none
              | some idx => .ok (some ⟨.slot idx, fileName, parentBlock, []⟩)

/-- The state when the allocation starts. -/
structure Prepared (g : Geometry) (s : ChainFS) (freed : List ℕ)
    (s₁ : ChainFS) : Prop where
  control : SameControl s s₁
  outside : SameOutsideMap g s.disk s₁.disk
  links : mapLink g s₁.disk = unlinkAll (mapLink g s.disk) freed
  heap : s₁.heap = s.heap
  log : s₁.dataWrites = s.dataWrites

theorem unlinkAll_nil (next : ℕ → ℕ) : unlinkAll next [] = next := by
  funext b
  exact unlinkAll_not_mem (by simp)

theorem Prepared.of_buffer (m : Memory) :
    Prepared g s [] { s with sectorBuffer := m } :=
  ⟨⟨rfl, rfl, rfl⟩, SameOutsideMap.refl _ _, (unlinkAll_nil _).symm, rfl,
    rfl⟩

/-- A write gives up, fails, or goes on to the allocation with its plan. -/
theorem Mounted.writeFile_plan (h : Mounted g s) (path : List UInt8)
    (data : Memory) (size : ℕ) :
    match writePlan g s path with
    | .error fault => chainfsWriteFile s path data size = .error fault
    | .ok none => ∃ m, chainfsWriteFile s path data size =
        .ok ({ s with sectorBuffer := m }, -1)
    | .ok (some plan) => ∃ s₁, Prepared g s plan.freed s₁ ∧
        chainfsWriteFile s path data size =
          storeFile s₁ plan.target.position plan.fileName data size
            plan.parent := by
  unfold writePlan
  cases hfind : s.find g path with
  | none =>
      obtain ⟨m, hwrite⟩ := h.writeFile_new hfind data size
      rw [hwrite]
      cases splitParent path with
      | error fault => rfl
      | ok split =>
          obtain ⟨parent, fileName⟩ := split
          dsimp only
          cases writeParentId g s.disk s.currentDirBlock parent with
          | none => exact ⟨m, rfl⟩
          | some parentBlock =>
              dsimp only
              cases freeSlot g s.disk with
              | none => exact ⟨m, rfl⟩
              | some idx => exact ⟨_, Prepared.of_buffer m, rfl⟩
  | some t =>
      obtain ⟨m, hwrite⟩ := h.writeFile_over hfind data size
      rw [hwrite]
      cases splitParent path with
      | error fault => rfl
      | ok split =>
          obtain ⟨parent, fileName⟩ := split
          dsimp only
          cases writeParentId g s.disk s.currentDirBlock parent with
          | none => exact ⟨m, rfl⟩
          | some parentBlock =>
              dsimp only
              have hmounted : Mounted g { s with sectorBuffer := m } :=
                h.of_same rfl rfl
              obtain ⟨d, m', hfree, hout, hlinks⟩ :=
                hmounted.freeBlockChain_eq
                  (t.found s.disk).entry.startBlock
              simp only [hfree]
              cases hreleased : released g s.disk
                  (t.found s.disk).entry.startBlock with
              | none => rfl
              | some freed =>
                  refine ⟨{ s with
                    disk := d
                    sectorBuffer := m' }, ?_, ?_⟩
                  · exact ⟨⟨rfl, rfl, rfl⟩, hout, hlinks freed hreleased,
                      rfl, rfl⟩
                  · simp only [Option.map_some, Target.found_position]

/-! ## Room -/

/-- The free blocks once those of `freed` are given back. -/
def freeBlocksAfter (g : Geometry) (d : ℕ → Memory) (freed : List ℕ) :
    List ℕ :=
  (List.range g.dataBlocks).filter fun b =>
    decide (g.Mapped b ∧ (mapLink g d b = 0 ∨ b ∈ freed))

/-- The heap and the map have room for the file once the blocks of `freed` are
given back. -/
def RoomAfter (g : Geometry) (s : ChainFS) (freed : List ℕ) (size : ℕ) :
    Prop :=
  (∀ h', kmalloc s.heap (blocksNeeded size * 4) ≠ some (h', 0)) ∧
    blocksNeeded size ≤ (freeBlocksAfter g s.disk freed).length

theorem freeBlocks_unlinkAll {freed : List ℕ}
    (h : mapLink g d' = unlinkAll (mapLink g d) freed) :
    freeBlocks g d' = freeBlocksAfter g d freed := by
  apply List.filter_congr
  intro b _
  rw [Bool.eq_iff_iff, freeMapped_iff, decide_eq_true_iff, h]
  by_cases hb : b ∈ freed
  · simp [unlinkAll_mem hb, hb]
  · simp [unlinkAll_not_mem hb, hb]

theorem Prepared.hasRoom_iff {freed : List ℕ}
    (h : Prepared g s freed s₁) :
    HasRoom g s₁ size ↔ RoomAfter g s freed size := by
  rw [HasRoom, RoomAfter, h.heap, freeBlocks_unlinkAll h.links]

theorem Prepared.allocated_eq {freed : List ℕ}
    (h : Prepared g s freed s₁) (size : ℕ) :
    allocated g s₁.disk size =
      (freeBlocksAfter g s.disk freed).take (blocksNeeded size) := by
  rw [allocated, freeBlocks_unlinkAll h.links]

/-- The write, if it gets so far, takes blocks whose sectors, before their
numbers wrap, satisfy `ok`. -/
def TakesSectors (g : Geometry) (s : ChainFS) (path : List UInt8) (size : ℕ)
    (ok : ℕ → Prop) : Prop :=
  ∀ plan, writePlan g s path = .ok (some plan) →
    RoomAfter g s plan.freed size →
      ∀ b ∈ (freeBlocksAfter g s.disk plan.freed).take (blocksNeeded size),
        ok (g.dataStart + b)

theorem TakesSectors.allocated {ok : ℕ → Prop} {plan : WritePlan} {b : ℕ}
    (h : TakesSectors g s path size ok)
    (hplan : writePlan g s path = .ok (some plan))
    (hprepared : Prepared g s plan.freed s₁)
    (hroom : RoomAfter g s plan.freed size)
    (hb : b ∈ allocated g s₁.disk size) : ok (g.dataStart + b) := by
  rw [hprepared.allocated_eq] at hb
  exact h plan hplan hroom b hb

theorem TakesSectors.imp {ok ok' : ℕ → Prop}
    (h : TakesSectors g s path size ok)
    (himp : ∀ n, g.dataStart ≤ n → ok n → ok' n) :
    TakesSectors g s path size ok' :=
  fun plan hplan hroom b hb =>
    himp _ (Nat.le_add_right _ _) (h plan hplan hroom b hb)

theorem TakesSectors.usable {plan : WritePlan}
    (h : TakesSectors g s path size (· < 2 ^ 32))
    (hplan : writePlan g s path = .ok (some plan))
    (hprepared : Prepared g s plan.freed s₁)
    (hroom : RoomAfter g s plan.freed size) :
    AllocatedUsable g s₁.disk size :=
  allocatedUsable_of_lt fun _ hb => h.allocated hplan hprepared hroom hb

theorem Geometry.NoWrap.takesSectors (h : g.NoWrap) (s : ChainFS)
    (path : List UInt8) (size : ℕ) :
    TakesSectors g s path size (· < 2 ^ 32) := by
  intro plan _ _ b hb
  have hmem := List.mem_filter.mp (List.mem_of_mem_take hb)
  exact h b (List.mem_range.mp hmem.1) (of_decide_eq_true hmem.2).1

/-- How a call of `chainfs_write_file` can end. -/
inductive WriteResult (g : Geometry) (s : ChainFS) (path : List UInt8)
    (data : Memory) (size : ℕ) : Except Fault (ChainFS × ℤ) → Prop
  | fault (fault : Fault) (hplan : writePlan g s path = .error fault) :
      WriteResult g s path data size (.error fault)
  | rejected (s' : ChainFS) (hplan : writePlan g s path = .ok none)
      (hsame : Unchanged s s') : WriteResult g s path data size (.ok (s', -1))
  | full (plan : WritePlan) (s₁ s' : ChainFS)
      (hplan : writePlan g s path = .ok (some plan))
      (hprepared : Prepared g s plan.freed s₁)
      (hroom : ¬ RoomAfter g s plan.freed size) (hsame : Unchanged s₁ s') :
      WriteResult g s path data size (.ok (s', -1))
  | stored (plan : WritePlan) (s₁ s' : ChainFS)
      (hplan : writePlan g s path = .ok (some plan))
      (hprepared : Prepared g s plan.freed s₁)
      (hroom : RoomAfter g s plan.freed size)
      (hstored : AllocatedUsable g s₁.disk size →
        Stored g s₁ s' plan.target.position plan.fileName data size
          plan.parent)
      (hcontrol : SameControl s₁ s')
      (hstore : storeFile s₁ plan.target.position plan.fileName data size
        plan.parent = .ok (s', 0)) :
      WriteResult g s path data size (.ok (s', 0))

theorem Mounted.writeFile_result (h : Mounted g s)
    (hready : HeapReady s.heap) (path : List UInt8) (data : Memory)
    (size : ℕ) :
    WriteResult g s path data size (chainfsWriteFile s path data size) := by
  have hwrite := h.writeFile_plan path data size
  cases hplan : writePlan g s path with
  | error fault =>
      rw [hplan] at hwrite
      rw [hwrite]
      exact .fault fault hplan
  | ok plan =>
      rw [hplan] at hwrite
      cases plan with
      | none =>
          obtain ⟨m, hwrite⟩ := hwrite
          rw [hwrite]
          exact .rejected _ hplan (Unchanged.of_buffer hready m)
      | some plan =>
          obtain ⟨s₁, hprepared, hwrite⟩ := hwrite
          have hready₁ : HeapReady s₁.heap := by
            rw [hprepared.heap]
            exact hready
          rcases (hprepared.control.mounted h).storeFile_cases hready₁
              plan.target.position plan.fileName data size plan.parent with
            ⟨s', hstore, hfull, hsame⟩ |
            ⟨s', hstore, hroom, hcontrol, hstored⟩
          · rw [hwrite, hstore]
            rw [hprepared.hasRoom_iff] at hfull
            exact .full plan s₁ s' hplan hprepared hfull hsame
          · rw [hwrite, hstore]
            rw [hprepared.hasRoom_iff] at hroom
            exact .stored plan s₁ s' hplan hprepared hroom hstored hcontrol
              hstore

end Otsos
