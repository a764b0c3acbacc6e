import Otsos.ChainFS.WriteRoom
import Otsos.Lib.Lowest

/-!
# Taking and releasing blocks of any map

Whatever the map holds, the search takes the lowest free data blocks, so that
only the first of them can be block zero and no link of the chain built from
them is zero; and releasing a chain that leads to the end marker frees its
blocks and changes no other entry and no sector outside the map.
-/

namespace Otsos

open Lib

variable {s : ChainFS} {b count : ℕ} {bs : List ℕ}

/-! ## Releasing a chain -/

/-- The blocks that following the links from a block visits, up to the end
marker.  All of them have a map entry. -/
inductive FollowsLinks (s : ChainFS) : ℕ → List ℕ → Prop
  | done : FollowsLinks s chainfsEofMarker []
  | visit {b : ℕ} {bs : List ℕ} (hb : b ≠ chainfsEofMarker)
      (hin : s.InMap b) (rest : FollowsLinks s (s.link b) bs) :
      FollowsLinks s b (b :: bs)

theorem FollowsLinks.headD (h : FollowsLinks s b bs) :
    bs.headD chainfsEofMarker = b := by
  cases h with
  | done => rfl
  | visit hb hin rest => rfl

theorem FollowsLinks.links (h : FollowsLinks s b bs) :
    Links s.link chainfsEofMarker bs := by
  induction h with
  | done => trivial
  | visit hb hin rest ih => exact ⟨rest.headD.symm, ih⟩

theorem FollowsLinks.inMap (h : FollowsLinks s b bs) :
    ∀ c ∈ bs, s.InMap c := by
  induction h with
  | done => exact fun c hc => absurd hc List.not_mem_nil
  | visit hb hin rest ih =>
      intro c hc
      rcases List.mem_cons.mp hc with rfl | hc
      · exact hin
      · exact ih c hc

theorem FollowsLinks.eof_not_mem (h : FollowsLinks s b bs) :
    chainfsEofMarker ∉ bs := by
  induction h with
  | done => exact List.not_mem_nil
  | visit hb hin rest ih =>
      rw [List.mem_cons, not_or]
      exact ⟨Ne.symm hb, ih⟩

/-- The release of a chain without repetition ends; it leaves the links of its
blocks zero, and every other link and every sector outside the map as they
were. -/
theorem freeBlockChain_frees (s : ChainFS) (start : ℕ) (bs : List ℕ)
    (hchain : FollowsLinks s start bs) (hdistinct : bs.Nodup) :
    ∃ d m, chainfsFreeBlockChain s start =
        some { s with
          disk := d
          sectorBuffer := m } ∧
      (∀ b ∈ bs, ChainFS.link { s with disk := d } b = 0) ∧
      (∀ c, s.InMap c → c ∉ bs →
        ChainFS.link { s with disk := d } c = s.link c) ∧
      ∀ sector, ¬ s.MapSector sector → d sector = s.disk sector := by
  obtain ⟨d, m, hfree, hframe, hlink⟩ := freeBlockChain_links s hchain.links
    hdistinct hchain.inMap hchain.eof_not_mem
  rw [hchain.headD] at hfree
  refine ⟨d, m, hfree, ?_, ?_, hframe⟩
  · intro b hb
    rw [hlink b (hchain.inMap b hb)]
    exact unlinkAll_mem hb
  · intro c hc hnot
    rw [hlink c hc]
    exact unlinkAll_not_mem hnot

/-- A chain of two blocks whose links go down. -/
def smallChain : ChainFS :=
  (chainfsWriteBlockMapEntry
    (chainfsWriteBlockMapEntry smallDisk 3 1).1 1 chainfsEofMarker).1

theorem freeBlockChain_frees_smallChain : ∃ d m,
    chainfsFreeBlockChain smallChain 3 =
        some { smallChain with
          disk := d
          sectorBuffer := m } ∧
      (∀ b ∈ [3, 1], ChainFS.link { smallChain with disk := d } b = 0) ∧
      (∀ c, smallChain.InMap c → c ∉ [3, 1] →
        ChainFS.link { smallChain with disk := d } c = smallChain.link c) ∧
      ∀ sector, ¬ smallChain.MapSector sector →
        d sector = smallChain.disk sector := by
  have hthree : smallChain.link 3 = 1 := by decide +kernel
  have hone : smallChain.link 1 = chainfsEofMarker := by decide +kernel
  have hlast : FollowsLinks smallChain 1 [1] := by
    refine .visit (by decide) (by decide +kernel) ?_
    rw [hone]
    exact .done
  have hchain : FollowsLinks smallChain 3 [3, 1] := by
    refine .visit (by decide) (by decide +kernel) ?_
    rwa [hthree]
  exact freeBlockChain_frees smallChain 3 [3, 1] hchain (by decide)

/-! ## Finding free blocks -/

/-- `(i + 1 < blocks_needed) ? allocated_blocks[i + 1] : CHAINFS_EOF_MARKER` -/
def nextBlock (blocks : List ℕ) (i : ℕ) : ℕ :=
  if h : i + 1 < blocks.length then blocks[i + 1] else chainfsEofMarker

theorem ChainFS.freeDataBlocks_sorted (s : ChainFS) :
    s.freeDataBlocks.Pairwise (· < ·) :=
  List.pairwise_lt_range.filter _

theorem ChainFS.lt_of_mem_freeDataBlocks (hb : b ∈ s.freeDataBlocks) :
    b < s.blockCount - s.dataAreaStart :=
  List.mem_range.mp (List.mem_filter.mp hb).1

theorem nextBlock_ne_zero (hsorted : bs.Pairwise (· < ·)) (i : ℕ) :
    nextBlock bs i ≠ 0 := by
  unfold nextBlock
  split
  · intro hzero
    have hindex := index_of_zero hsorted (i := i + 1)
      (by rw [List.getElem?_eq_getElem ‹_›, hzero])
    omega
  · decide

theorem nextBlock_of_links {next : ℕ → ℕ}
    (h : Links next chainfsEofMarker bs) {i : ℕ} (hi : i < bs.length) :
    next bs[i] = nextBlock bs i := by
  induction bs generalizing i with
  | nil => cases hi
  | cons b bs ih =>
      cases i with
      | zero =>
          refine h.1.trans ?_
          cases bs <;> rfl
      | succ i =>
          rw [List.getElem_cons_succ, ih h.2 (by simpa using hi)]
          simp [nextBlock]

/-- Writing a sector outside the map leaves the links. -/
theorem link_update {sector : ℕ} {m : Memory} (hsector : ¬ s.MapSector sector)
    (hb : s.InMap b) :
    ChainFS.link { s with disk := Function.update s.disk sector m } b =
      s.link b := by
  have hne : mapSector s (b / mapEntriesPerBlock) ≠ sector := by
    rintro rfl
    exact hsector ⟨_, hb, rfl⟩
  exact congrArg (fun m : Memory => m.load _ 4) (Function.update_of_ne hne _ _)

/-- The loop of `chainfs_write_file` chains the blocks, as long as their
sectors are outside the map. -/
theorem writeChain_links (data : Memory) (remaining off : ℕ)
    (hin : ∀ b ∈ bs, s.InMap b) (hlt : ∀ b ∈ bs, b < 2 ^ 32)
    (hout : ∀ b ∈ bs, ¬ s.MapSector (wrap32 (s.dataAreaStart + b))) :
    ∃ d m w, writeChain s data bs remaining off =
        { s with
          disk := d
          sectorBuffer := m
          dataWrites := w } ∧
      ∀ c, s.InMap c → ChainFS.link { s with disk := d } c =
        linkAll s.link chainfsEofMarker bs c := by
  induction bs generalizing s remaining off with
  | nil => exact ⟨s.disk, s.sectorBuffer, s.dataWrites, rfl, fun _ _ => rfl⟩
  | cons b bs ih =>
      have hb := hin b List.mem_cons_self
      have hvalue : bs.headD chainfsEofMarker < 2 ^ 32 := by
        cases bs with
        | nil => decide
        | cons c bs => exact hlt c (List.mem_cons_of_mem b List.mem_cons_self)
      let block := copyBytes zeroSector 0 data off (min remaining 512)
      let sector := wrap32 (s.dataAreaStart + b)
      let s₁ : ChainFS := { s with
        disk := Function.update s.disk sector block
        sectorBuffer := block
        dataWrites := sector :: s.dataWrites }
      obtain ⟨d₁, m₁, hwrite, hlink, -⟩ :=
        writeBlockMapEntry_some s₁ hb hvalue
      let s₂ : ChainFS := { s₁ with
        disk := d₁
        sectorBuffer := m₁ }
      obtain ⟨d, m, w, hrest, hlinks⟩ := @ih s₂
        (remaining - min remaining 512) (off + min remaining 512)
        (fun c hc => hin c (List.mem_cons_of_mem b hc))
        (fun c hc => hlt c (List.mem_cons_of_mem b hc))
        (fun c hc => hout c (List.mem_cons_of_mem b hc))
      refine ⟨d, m, w, ?_, ?_⟩
      · rw [writeChain]
        simp only [transfer_eq, pataWriteSector]
        exact (congrArg (fun r : ChainFS × ℤ => writeChain r.1 data bs
          (remaining - min remaining 512) (off + min remaining 512))
          hwrite).trans hrest
      · intro c hc
        refine (hlinks c hc).trans (linkAll_congr ?_)
        refine (hlink c hc).trans ?_
        by_cases hcb : c = b
        · rw [hcb, Function.update_self, Function.update_self]
        · rw [Function.update_of_ne hcb, Function.update_of_ne hcb]
          exact link_update (hout b List.mem_cons_self) hc

/-- What the search for `count` free blocks owes its caller. -/
structure LowestFreeBlocks (s : ChainFS) (count : ℕ) (code : ℤ)
    (blocks : List ℕ) : Prop where
  succeeds : code = 0 ↔ count ≤ s.freeDataBlocks.length
  lowest : code = 0 → LowestOf s.freeDataBlocks count blocks
  room : blocks.length ≤ count
  inside : ∀ b ∈ blocks, b < s.blockCount - s.dataAreaStart
  zero : ∀ i, blocks[i]? = some 0 → i = 0
  links : ∀ i < blocks.length, nextBlock blocks i ≠ 0

theorem take_lowestFreeBlocks (s : ChainFS) (count : ℕ) :
    LowestFreeBlocks s count
      (if count ≤ s.freeDataBlocks.length then 0 else -1)
      (s.freeDataBlocks.take count) := by
  have hcode : (if count ≤ s.freeDataBlocks.length then (0 : ℤ) else -1) = 0 ↔
      count ≤ s.freeDataBlocks.length := by
    split <;> simp [*]
  have hsorted : (s.freeDataBlocks.take count).Pairwise (· < ·) :=
    s.freeDataBlocks_sorted.take
  constructor
  · exact hcode
  · intro hzero
    exact take_lowestOf s.freeDataBlocks_sorted (hcode.mp hzero)
  · exact List.length_take_le _ _
  · intro b hb
    exact ChainFS.lt_of_mem_freeDataBlocks (List.mem_of_mem_take hb)
  · exact fun i => index_of_zero hsorted
  · exact fun i _ => nextBlock_ne_zero hsorted i

/-- A superblock that puts the data area behind the map leaves no data block
a sector of the map. -/
theorem dataSector_not_mapSector (hb : b < s.blockCount - s.dataAreaStart)
    (hregions : s.dataAreaStart =
      1 + s.fileTableBlockCount + s.blockMapBlockCount) :
    ¬ s.MapSector (wrap32 (s.dataAreaStart + b)) := by
  have hlt := blockCount_lt s
  rintro ⟨k, hk, hsector⟩
  rw [mapSector, wrap32_of_lt (by omega), wrap32_of_lt (by omega)] at hsector
  omega

theorem writeChain_nextBlock {blocks : List ℕ}
    (hcovered : s.blockCount - s.dataAreaStart ≤ 128 * s.blockMapBlockCount)
    (hregions : s.dataAreaStart =
      1 + s.fileTableBlockCount + s.blockMapBlockCount)
    (hsorted : blocks.Pairwise (· < ·))
    (hdata : ∀ b ∈ blocks, b < s.blockCount - s.dataAreaStart)
    (data : Memory) (size : ℕ) {i : ℕ} (hi : i < blocks.length) :
    (writeChain s data blocks size 0).link blocks[i] = nextBlock blocks i := by
  have hlt := blockCount_lt s
  have hin : ∀ b ∈ blocks, s.InMap b :=
    fun b hb => inMap_of_covered hcovered (hdata b hb)
  have hsmall : ∀ b ∈ blocks, b < 2 ^ 32 := by
    intro b hb
    have hb := hdata b hb
    omega
  obtain ⟨d, m, w, hchain, hlinks⟩ := writeChain_links data size 0 hin hsmall
    fun b hb => dataSector_not_mapSector (hdata b hb) hregions
  have hnodup : blocks.Nodup := hsorted.imp fun hlt => Nat.ne_of_lt hlt
  rw [hchain]
  exact (hlinks _ (hin _ (List.getElem_mem hi))).trans
    (nextBlock_of_links (links_linkAll hnodup) hi)

/-- The search finds the lowest free data blocks; and where the superblock
puts the data area behind the map, the links that the loop of
`chainfs_write_file` leaves on the disk are those of the blocks found. -/
theorem findFreeBlocks_lowest (s : ChainFS) (count : ℕ)
    (hstart : s.dataAreaStart ≤ s.blockCount)
    (hcovered : s.blockCount - s.dataAreaStart ≤
      128 * s.blockMapBlockCount) :
    ∃ m code blocks, chainfsFindFreeBlocks s count =
        ({ s with sectorBuffer := m }, code, blocks) ∧
      LowestFreeBlocks s count code blocks ∧
      (s.dataAreaStart = 1 + s.fileTableBlockCount + s.blockMapBlockCount →
        ∀ data size i, (hi : i < blocks.length) →
          (writeChain { s with sectorBuffer := m } data blocks size 0).link
            blocks[i] = nextBlock blocks i) := by
  obtain ⟨m, hfind⟩ := findFreeBlocks_eq s count
  rw [freeBlocks_of_covered hstart hcovered] at hfind
  have hlowest := take_lowestFreeBlocks s count
  refine ⟨m, _, _, hfind, hlowest, ?_⟩
  intro hregions data size i hi
  let s₁ : ChainFS := { s with sectorBuffer := m }
  exact writeChain_nextBlock (s := s₁) hcovered hregions
    s.freeDataBlocks_sorted.take hlowest.inside data size hi

theorem findFreeBlocks_lowest_smallChain : ∃ m code blocks,
    chainfsFindFreeBlocks smallChain 3 =
        ({ smallChain with sectorBuffer := m }, code, blocks) ∧
      (code, blocks) = (0, [0, 2, 4]) ∧
      LowestFreeBlocks smallChain 3 code blocks ∧
      ∀ data size i, (hi : i < blocks.length) →
        (writeChain { smallChain with sectorBuffer := m } data blocks size
          0).link blocks[i] = nextBlock blocks i := by
  obtain ⟨m, code, blocks, hfind, hlowest, hchain⟩ :=
    findFreeBlocks_lowest smallChain 3 (by decide +kernel) (by decide +kernel)
  have hvalue : (chainfsFindFreeBlocks smallChain 3).2 = (0, [0, 2, 4]) := by
    decide +kernel
  rw [hfind] at hvalue
  exact ⟨m, code, blocks, hfind, hvalue, hlowest,
    hchain (by decide +kernel)⟩

end Otsos
