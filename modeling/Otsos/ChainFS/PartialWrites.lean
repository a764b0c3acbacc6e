import Otsos.ChainFS.SectorWrites
import Otsos.ChainFS.UniqueNames

/-!
# Calls cut short

A write or a delete on a name of the current directory changes the table with
its last sector only.  Before that it unlinks the blocks it gives back and
fills and links the ones it takes, and leaves every other block alone.
-/

namespace Otsos

open Lib

variable {g : Geometry} {s s' : ChainFS} {d d' d'' : ℕ → Memory}
  {kept : ℕ → Prop} {bs : List ℕ} {name : CString} {data : Memory}
  {size idx b v : ℕ} {code : ℤ}

/-- Nothing of the table has changed, nor have the links and the contents of
the blocks that are to be kept. -/
structure Undisturbed (g : Geometry) (kept : ℕ → Prop) (d d' : ℕ → Memory) :
    Prop where
  table : ∀ sector < 1 + g.table, d' sector = d sector
  links : ∀ b, kept b → mapLink g d' b = mapLink g d b
  contents : ∀ b, kept b → d' (g.dataStart + b) = d (g.dataStart + b)

theorem Undisturbed.refl : Undisturbed g kept d d :=
  ⟨fun _ _ => rfl, fun _ _ => rfl, fun _ _ => rfl⟩

theorem Undisturbed.trans (h : Undisturbed g kept d d')
    (h' : Undisturbed g kept d' d'') : Undisturbed g kept d d'' :=
  ⟨fun sector hsector => (h'.table sector hsector).trans
      (h.table sector hsector),
    fun b hb => (h'.links b hb).trans (h.links b hb),
    fun b hb => (h'.contents b hb).trans (h.contents b hb)⟩

theorem Undisturbed.setLink (hb : g.Mapped b) (hnot : ¬ kept b)
    (hv : v < 2 ^ 32) : Undisturbed g kept d (setLink g d b v) := by
  have hout := setLink_outside (d := d) (v := v) hb
  refine ⟨fun sector hsector => hout sector (Or.inl hsector), ?_, ?_⟩
  · intro c hc
    rw [mapLink_setLink hv]
    apply Function.update_of_ne
    rintro rfl
    exact hnot hc
  · intro c _
    exact hout _ (Or.inr (Nat.le_add_right _ _))

theorem Undisturbed.block {m : Memory} (hkept : ∀ c, kept c → g.Mapped c)
    (hnot : ¬ kept b) :
    Undisturbed g kept d (Function.update d (g.dataStart + b) m) := by
  refine ⟨?_, ?_, ?_⟩
  · intro sector hsector
    apply Function.update_of_ne
    simp only [Geometry.dataStart]
    omega
  · intro c hc
    have hmapped := hkept c hc
    apply mapLink_congr
    apply Function.update_of_ne
    simp only [Geometry.Mapped, Geometry.dataStart] at hmapped ⊢
    omega
  · intro c hc
    apply Function.update_of_ne
    intro heq
    have hcb : c = b := by omega
    exact hnot (hcb ▸ hc)

theorem Undisturbed.sameTable (h : Undisturbed g kept d d') :
    SameTable g d d' := by
  intro j hj
  exact SameSlot.of_sector (h.table _ (g.slot_sector hj).2)

/-! ## The writes of a mounted disk -/

theorem Mounted.blockMapEntrySectors_eq (h : Mounted g s)
    (hb : g.Mapped b) :
    blockMapEntrySectors s b v = [(1 + g.table + b / 128,
      (s.disk (1 + g.table + b / 128)).store (4 * (b % 128)) 4 v)] := by
  unfold blockMapEntrySectors mapEntriesPerBlock
  rw [h.map, if_neg (Nat.not_le.mpr hb), h.mapSector_eq hb]
  rfl

theorem Mounted.torn_blockMapEntry (h : Mounted g s) (hb : g.Mapped b)
    (hnot : ¬ kept b) (hv : v < 2 ^ 32)
    (htorn : Torn s.disk (blockMapEntrySectors s b v) d') :
    Undisturbed g kept s.disk d' := by
  rw [h.blockMapEntrySectors_eq hb, torn_cons, torn_nil] at htorn
  rcases htorn with rfl | rfl
  · exact Undisturbed.refl
  · exact Undisturbed.setLink hb hnot hv

theorem Mounted.torn_freeChain (h : Mounted g s)
    (hlinks : Links (mapLink g s.disk) chainfsEofMarker bs)
    (hnodup : bs.Nodup) (hmapped : ∀ b ∈ bs, g.Mapped b)
    (heof : chainfsEofMarker ∉ bs) (hnot : ∀ b ∈ bs, ¬ kept b) (fuel : ℕ)
    (htorn : Torn s.disk
      (freeChainSectors s fuel (bs.headD chainfsEofMarker)) d') :
    Undisturbed g kept s.disk d' := by
  induction bs generalizing s fuel with
  | nil =>
      have hnone : freeChainSectors s fuel chainfsEofMarker = [] := by
        cases fuel with
        | zero => rfl
        | succ fuel => exact if_pos rfl
      rw [List.headD_nil, hnone, torn_nil] at htorn
      rw [htorn]
      exact Undisturbed.refl
  | cons b bs ih =>
      obtain ⟨hb, hnodup⟩ := List.nodup_cons.mp hnodup
      rw [List.mem_cons, not_or] at heof
      have hbm := hmapped b List.mem_cons_self
      have hnb := hnot b List.mem_cons_self
      cases fuel with
      | zero =>
          rw [freeChainSectors, torn_nil] at htorn
          rw [htorn]
          exact Undisturbed.refl
      | succ fuel =>
          obtain ⟨m, hread⟩ := h.readBlockMapEntry_eq hbm
          have hs₁ : Mounted g { s with sectorBuffer := m } :=
            h.of_same rfl rfl
          rw [List.headD_cons, freeChainSectors, if_neg (Ne.symm heof.1),
            hread, hlinks.1, torn_append] at htorn
          rcases htorn with hfirst | hrest
          · exact hs₁.torn_blockMapEntry hbm hnb (by decide) hfirst
          · obtain ⟨m₁, hwrite⟩ :=
              hs₁.writeBlockMapEntry_eq (v := chainfsFreeBlock) hbm
            have hdisk := blockMapEntrySectors_disk
              { s with sectorBuffer := m } b chainfsFreeBlock
            rw [hwrite] at hdisk
            dsimp only at hdisk
            have hs₂ : Mounted g { s with
                disk := setLink g s.disk b chainfsFreeBlock
                sectorBuffer := m₁ } := h.of_same rfl rfl
            have hfirst : Undisturbed g kept s.disk
                (setLink g s.disk b chainfsFreeBlock) :=
              Undisturbed.setLink hbm hnb (by decide)
            rw [hdisk, hwrite] at hrest
            refine hfirst.trans (ih hs₂ ?_ hnodup
              (fun c hc => hmapped c (List.mem_cons_of_mem b hc)) heof.2
              (fun c hc => hnot c (List.mem_cons_of_mem b hc)) fuel hrest)
            refine hlinks.2.congr fun c hc => ?_
            dsimp only
            rw [mapLink_setLink (by decide), Function.update_of_ne]
            rintro rfl
            exact hb hc

theorem Mounted.torn_writeChain (h : Mounted g s)
    (hkept : ∀ c, kept c → g.Mapped c) (husable : ∀ b ∈ bs, g.Usable b)
    (hnot : ∀ b ∈ bs, ¬ kept b) (remaining off : ℕ)
    (htorn : Torn s.disk (writeChainSectors s data bs remaining off) d') :
    Undisturbed g kept s.disk d' := by
  induction bs generalizing s remaining off with
  | nil =>
      rw [writeChainSectors, torn_nil] at htorn
      rw [htorn]
      exact Undisturbed.refl
  | cons b bs ih =>
      have hbu := husable b List.mem_cons_self
      have hnb := hnot b List.mem_cons_self
      have htail : ∀ c ∈ bs, g.Usable c :=
        fun c hc => husable c (List.mem_cons_of_mem b hc)
      have hsector : wrap32 (s.dataAreaStart + b) = g.dataStart + b := by
        rw [h.start]
        exact hbu.sector
      rw [writeChainSectors] at htorn
      simp only [transfer_eq, hsector, pataWriteSector] at htorn
      rw [torn_cons] at htorn
      rcases htorn with rfl | htorn
      · exact Undisturbed.refl
      · have hblock : Undisturbed g kept s.disk
            (Function.update s.disk (g.dataStart + b)
              (copyBytes zeroSector 0 data off (min remaining 512))) :=
          Undisturbed.block hkept hnb
        refine hblock.trans ?_
        generalize hs₁ : ({ s with
          disk := Function.update s.disk (g.dataStart + b)
            (copyBytes zeroSector 0 data off (min remaining 512))
          sectorBuffer := copyBytes zeroSector 0 data off (min remaining 512)
          dataWrites := (g.dataStart + b) :: s.dataWrites } : ChainFS) = s₁
          at htorn
        have hdisk₁ : Function.update s.disk (g.dataStart + b)
            (copyBytes zeroSector 0 data off (min remaining 512)) =
            s₁.disk := by rw [← hs₁]
        have hmounted : Mounted g s₁ := by
          rw [← hs₁]
          exact h.of_same rfl rfl
        rw [hdisk₁] at htorn ⊢
        rw [torn_append] at htorn
        rcases htorn with hlink | hrest
        · exact hmounted.torn_blockMapEntry hbu.mapped hnb
            (Geometry.Usable.next_lt htail) hlink
        · have hlinked : Undisturbed g kept s₁.disk (afterWrites s₁.disk
              (blockMapEntrySectors s₁ b (bs.headD chainfsEofMarker))) :=
            hmounted.torn_blockMapEntry hbu.mapped hnb
              (Geometry.Usable.next_lt htail) Torn.all
          obtain ⟨m, hwrite⟩ := hmounted.writeBlockMapEntry_eq
            (v := bs.headD chainfsEofMarker) hbu.mapped
          rw [blockMapEntrySectors_disk] at hlinked hrest
          have hnext : Mounted g (chainfsWriteBlockMapEntry s₁ b
              (bs.headD chainfsEofMarker)).1 := by
            rw [hwrite]
            exact hmounted.of_same rfl rfl
          exact hlinked.trans (ih hnext htail
            (fun c hc => hnot c (List.mem_cons_of_mem b hc)) _ _ hrest)

/-- Storing a file leaves the blocks in use alone, until it writes the entry
last. -/
theorem Mounted.torn_storeFile (h : Mounted g s) (hwrap : g.NoWrap)
    {slot : ℕ × ℕ} {fileName : List UInt8} {parent : ℕ}
    (hkept : ∀ b, kept b → g.Mapped b ∧ mapLink g s.disk b ≠ 0)
    (htorn : Torn s.disk
      (storeFileSectors s slot fileName data size parent) d') :
    Undisturbed g kept s.disk d' ∨
      d' = afterWrites s.disk
        (storeFileSectors s slot fileName data size parent) := by
  have hnone : Torn s.disk [] d' → Undisturbed g kept s.disk d' := by
    intro htorn
    rw [torn_nil.mp htorn]
    exact Undisturbed.refl
  unfold storeFileSectors at htorn ⊢
  cases hkmalloc : kmalloc s.heap (blocksNeeded size * 4) with
  | none =>
      rw [hkmalloc] at htorn
      exact Or.inl (hnone htorn)
  | some r =>
      obtain ⟨heap, ptr⟩ := r
      rw [hkmalloc] at htorn
      dsimp only at htorn ⊢
      by_cases hptr : ptr = 0
      · rw [if_pos hptr] at htorn
        exact Or.inl (hnone htorn)
      · have hs₁ : Mounted g { s with heap := heap } := h.of_same rfl rfl
        obtain ⟨m, hfind⟩ := hs₁.findFreeBlocks_eq (blocksNeeded size)
        rw [if_neg hptr, hfind] at htorn ⊢
        dsimp only at htorn ⊢
        by_cases hcode : (if blocksNeeded size ≤
            (freeBlocks g s.disk).length then (0 : ℤ) else -1) ≠ 0
        · rw [if_pos hcode] at htorn
          exact Or.inl (hnone htorn)
        · rw [if_neg hcode] at htorn ⊢
          have hs₂ : Mounted g
              { s with
                heap := heap
                sectorBuffer := m } := h.of_same rfl rfl
          rw [torn_append] at htorn
          rcases htorn with hchain | hentry
          · left
            refine hs₂.torn_writeChain (fun b hb => (hkept b hb).1)
              (hwrap.allocatedUsable s.disk size) ?_ size 0 hchain
            intro b hb hmem
            exact (hkept b hmem).2 (freeBlocks_spec hb).2.2
          · rw [torn_cons, torn_nil] at hentry
            rcases hentry with hbefore | hafter
            · left
              rw [hbefore]
              refine hs₂.torn_writeChain (fun b hb => (hkept b hb).1)
                (hwrap.allocatedUsable s.disk size) ?_ size 0 Torn.all
              intro b hb hmem
              exact (hkept b hmem).2 (freeBlocks_spec hb).2.2
            · right
              rw [hafter, afterWrites_append]
              rfl

/-! ## The calls -/

/-- The chain of a file, as its entry and the map have it. -/
structure FileChain (g : Geometry) (d : ℕ → Memory) (idx : ℕ)
    (bs : List ℕ) : Prop where
  start : (entryOf d idx).startBlock = bs.headD chainfsEofMarker
  links : Links (mapLink g d) chainfsEofMarker bs
  nodup : bs.Nodup
  usable : ∀ b ∈ bs, g.Usable b

theorem FileChain.mapped (h : FileChain g d idx bs) : ∀ b ∈ bs, g.Mapped b :=
  fun b hb => (h.usable b hb).mapped

theorem FileChain.eof_not_mem (h : FileChain g d idx bs) :
    chainfsEofMarker ∉ bs :=
  Geometry.eof_not_mem h.usable

theorem FileChain.released (h : FileChain g d idx bs) :
    released g d (entryOf d idx).startBlock = some bs := by
  rw [h.start]
  exact released_chain h.links h.nodup h.mapped h.eof_not_mem

theorem Mounted.torn_release (h : Mounted g s)
    (hchain : FileChain g s.disk idx bs) (hnot : ∀ b ∈ bs, ¬ kept b)
    (fuel : ℕ) (htorn : Torn s.disk (freeChainSectors s fuel
      (entryOf s.disk idx).startBlock) d') :
    Undisturbed g kept s.disk d' := by
  rw [hchain.start] at htorn
  exact h.torn_freeChain hchain.links hchain.nodup hchain.mapped
    hchain.eof_not_mem hnot fuel htorn

/-- What releasing the chain of a file comes to. -/
theorem Mounted.release_eq (h : Mounted g s)
    (hchain : FileChain g s.disk idx bs) :
    ∃ d m, chainfsFreeBlockChain s (entryOf s.disk idx).startBlock =
        some { s with
          disk := d
          sectorBuffer := m } ∧
      afterWrites s.disk (freeChainSectors s (chainFuel s)
        (entryOf s.disk idx).startBlock) = d ∧
      mapLink g d = unlinkAll (mapLink g s.disk) bs := by
  obtain ⟨d, m, hfree, -, hmap⟩ :=
    h.freeBlockChain_eq (entryOf s.disk idx).startBlock
  rw [hchain.released, Option.map_some] at hfree
  refine ⟨d, m, hfree, ?_, hmap bs hchain.released⟩
  rw [freeChainSectors_disk hfree]

theorem Mounted.torn_write_new (h : Mounted g s) (hwrap : g.NoWrap)
    (hname : SimpleName name)
    (hnew : lookup g s.disk s.currentDirBlock name.chars = none)
    (hkept : ∀ b, kept b → g.Mapped b ∧ mapLink g s.disk b ≠ 0)
    (htorn : Torn s.disk (writeFileSectors s name.chars data size) d') :
    Undisturbed g kept s.disk d' ∨
      d' = afterWrites s.disk (writeFileSectors s name.chars data size) := by
  obtain ⟨m, hfind⟩ := h.findFile_eq name.chars
  rw [show findTable g s.disk s.currentDirBlock name.chars = none by
    rw [← ChainFS.find, hname.find_eq, hnew]; rfl] at hfind
  have hs₁ : Mounted g { s with sectorBuffer := m } := h.of_same rfl rfl
  obtain ⟨m₁, hslot⟩ := hs₁.findFreeFileEntry_eq
  unfold writeFileSectors at htorn ⊢
  simp only [hfind, hname.splitParent_eq, writeParent, Option.map_none,
    targetSlotSectors, targetSlot, List.nil_append, hslot] at htorn ⊢
  cases hfree : freeSlot g s.disk with
  | none =>
      rw [hfree] at htorn
      rw [torn_nil.mp htorn]
      exact Or.inl Undisturbed.refl
  | some idx =>
      rw [hfree] at htorn
      have hs₂ : Mounted g { s with sectorBuffer := m₁ } := h.of_same rfl rfl
      exact hs₂.torn_storeFile hwrap hkept htorn

theorem Mounted.torn_write_over (h : Mounted g s) (hwrap : g.NoWrap)
    (hname : SimpleName name)
    (hold : lookup g s.disk s.currentDirBlock name.chars = some idx)
    (hchain : FileChain g s.disk idx bs)
    (hkept : ∀ b, kept b → g.Mapped b ∧ mapLink g s.disk b ≠ 0 ∧ b ∉ bs)
    (htorn : Torn s.disk (writeFileSectors s name.chars data size) d') :
    Undisturbed g kept s.disk d' ∨
      d' = afterWrites s.disk (writeFileSectors s name.chars data size) := by
  obtain ⟨m, hfind⟩ := h.findFile_eq name.chars
  rw [show findTable g s.disk s.currentDirBlock name.chars =
      some (.slot idx) by
    rw [← ChainFS.find, hname.find_eq, hold]; rfl] at hfind
  have hs₁ : Mounted g { s with sectorBuffer := m } := h.of_same rfl rfl
  have hnot : ∀ b ∈ bs, ¬ kept b := fun b hb hk => (hkept b hk).2.2 hb
  obtain ⟨d, m₁, hfree, hfreed, hmap⟩ := hs₁.release_eq hchain
  have hreleased : Undisturbed g kept s.disk d := by
    rw [← hfreed]
    exact hs₁.torn_release hchain hnot _ Torn.all
  unfold writeFileSectors at htorn ⊢
  simp only [hfind, hname.splitParent_eq, writeParent, Option.map_some,
    Target.found, foundAt, targetSlotSectors, targetSlot, hfree] at htorn ⊢
  rw [torn_append] at htorn
  rw [afterWrites_append]
  rcases htorn with hfirst | hrest
  · exact Or.inl (hs₁.torn_release hchain hnot _ hfirst)
  · dsimp only at hfreed
    rw [hfreed] at hrest ⊢
    have hs₂ : Mounted g { s with
        disk := d
        sectorBuffer := m₁ } := h.of_same rfl rfl
    have hused : ∀ b, kept b → g.Mapped b ∧ mapLink g d b ≠ 0 := by
      intro b hb
      obtain ⟨hmapped, hne, hout⟩ := hkept b hb
      refine ⟨hmapped, ?_⟩
      rw [hmap, unlinkAll_not_mem hout]
      exact hne
    rcases hs₂.torn_storeFile hwrap hused hrest with hpart | hall
    · exact Or.inl (hreleased.trans hpart)
    · exact Or.inr hall

theorem Mounted.torn_delete (h : Mounted g s)
    (hname : SimpleName name)
    (hold : lookup g s.disk s.currentDirBlock name.chars = some idx)
    (hchain : FileChain g s.disk idx bs) (hnot : ∀ b ∈ bs, ¬ kept b)
    (htorn : Torn s.disk (deleteFileSectors s name.chars) d') :
    Undisturbed g kept s.disk d' ∨
      d' = afterWrites s.disk (deleteFileSectors s name.chars) := by
  obtain ⟨m, hfind⟩ := h.findFile_eq name.chars
  rw [show findTable g s.disk s.currentDirBlock name.chars =
      some (.slot idx) by
    rw [← ChainFS.find, hname.find_eq, hold]; rfl] at hfind
  have hs₁ : Mounted g { s with sectorBuffer := m } := h.of_same rfl rfl
  obtain ⟨d, m₁, hfree, hfreed, -⟩ := hs₁.release_eq hchain
  unfold deleteFileSectors at htorn ⊢
  simp only [hfind, Option.map_some, Target.found, foundAt, hfree,
    clearStatusSectors] at htorn ⊢
  rw [torn_append] at htorn
  rw [afterWrites_append]
  rcases htorn with hfirst | hrest
  · exact Or.inl (hs₁.torn_release hchain hnot _ hfirst)
  · dsimp only at hfreed
    rw [hfreed] at hrest ⊢
    rw [torn_cons, torn_nil] at hrest
    rcases hrest with hbefore | hafter
    · left
      rw [hbefore, ← hfreed]
      exact hs₁.torn_release hchain hnot _ Torn.all
    · exact Or.inr hafter

/-- No file is deleted, and nothing is written. -/
theorem Mounted.deleteFileSectors_missing (h : Mounted g s)
    (hname : SimpleName name)
    (hnew : lookup g s.disk s.currentDirBlock name.chars = none) :
    deleteFileSectors s name.chars = [] := by
  obtain ⟨m, hfind⟩ := h.findFile_eq name.chars
  rw [show findTable g s.disk s.currentDirBlock name.chars = none by
    rw [← ChainFS.find, hname.find_eq, hnew]; rfl] at hfind
  rw [deleteFileSectors, hfind]
  rfl

/-- A call that writes one sector at most is made or not. -/
theorem torn_single {ws : List SectorWrite} (hlen : ws.length ≤ 1)
    (htorn : Torn d ws d') : d' = d ∨ d' = afterWrites d ws := by
  rcases ws with - | ⟨w, - | ⟨v, ws⟩⟩
  · exact Or.inl (torn_nil.mp htorn)
  · rw [torn_cons, torn_nil] at htorn
    exact htorn
  · simp at hlen

theorem length_mkdirSectors (s : ChainFS) (path : List UInt8) :
    (mkdirSectors s path).length ≤ 1 := by
  unfold mkdirSectors
  cases splitParent path with
  | error fault => exact Nat.zero_le 1
  | ok split =>
      obtain ⟨parent, dirName⟩ := split
      dsimp only
      rcases mkdirParent s parent with ⟨s₁, - | parentBlock⟩
      · exact Nat.zero_le 1
      · dsimp only
        rcases chainfsFindInDirectory s₁ parentBlock dirName with
          ⟨s₂, - | f⟩
        · dsimp only
          rcases chainfsFindFreeFileEntry s₂ with ⟨s₃, code | slot⟩
          · exact Nat.zero_le 1
          · exact Nat.le_refl 1
        · exact Nat.zero_le 1

end Otsos
