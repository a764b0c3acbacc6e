import Otsos.ChainFS.Contents

/-!
# Reading from any disk

Nothing is assumed of the disk: links may form cycles, leave the map or join
other chains, and an entry may record any size.  A read still ends, since each
iteration copies something of a file whose size is a number of 32 bits; it
stays in its buffer, and it is complete if the chain is long enough.
-/

namespace Otsos

open Lib

variable {s : ChainFS} {buffer : Memory} {bufferSize : ℕ}

/-! ## Entries found -/

/-- What a search leaves of the state, and what it finds. -/
structure Searched (s : ChainFS) (r : ChainFS × Option Found) : Prop where
  state : ∃ m, r.1 = { s with sectorBuffer := m }
  entry : ∀ f, r.2 = some f → ∃ m i, f.entry = entryAt m i

theorem Searched.leaves {s : ChainFS} {r : ChainFS × Option Found}
    (h : Searched s r) :
    ∃ m found, r = ({ s with sectorBuffer := m }, found) := by
  obtain ⟨m, hstate⟩ := h.state
  exact ⟨m, r.2, Prod.ext hstate rfl⟩

theorem findInDirectory_searched (s : ChainFS) (dirBlock : ℕ)
    (name : List UInt8) :
    Searched s (chainfsFindInDirectory s dirBlock name) := by
  obtain ⟨m, hfind⟩ := findInDirectory_eq s dirBlock name
  rw [hfind]
  refine ⟨⟨m, rfl⟩, ?_⟩
  rintro f hf
  obtain ⟨idx, -, rfl⟩ := Option.map_eq_some_iff.mp hf
  exact ⟨_, idx % 8, rfl⟩

theorem Searched.nothing (s : ChainFS) (m : Memory) :
    Searched s ({ s with sectorBuffer := m }, none) := by
  refine ⟨⟨m, rfl⟩, ?_⟩
  intro f hf
  cases hf

theorem resolveComponents_searched (s : ChainFS) (current : ℕ)
    (components : List (List UInt8)) :
    Searched s (resolveComponents s current components) := by
  induction components generalizing s current with
  | nil => exact Searched.nothing s s.sectorBuffer
  | cons c cs ih =>
      obtain ⟨⟨m, hstate⟩, hentry⟩ := findInDirectory_searched s current c
      rw [resolveComponents]
      cases hfind : chainfsFindInDirectory s current c with
      | mk s₁ found =>
          rw [hfind] at hstate hentry
          cases hstate
          cases found with
          | none => exact Searched.nothing s m
          | some f =>
              by_cases hlast : cs = []
              · simp only [if_pos hlast]
                exact ⟨⟨m, rfl⟩, hentry⟩
              · by_cases htype : f.entry.type ≠ chainfsTypeDir
                · simp only [if_neg hlast, if_pos htype]
                  exact Searched.nothing s m
                · simp only [if_neg hlast, if_neg htype]
                  obtain ⟨hrest, hfound⟩ := ih { s with sectorBuffer := m }
                    (entryIndex f.block f.offset)
                  exact ⟨hrest, hfound⟩

theorem resolvePath_searched (s : ChainFS) (path : List UInt8) :
    Searched s (chainfsResolvePath s path) := by
  unfold chainfsResolvePath
  by_cases hroot : splitPath path = [] ∧ path.head? = some slash
  · simp only [if_pos hroot]
    refine ⟨⟨_, rfl⟩, ?_⟩
    rintro f ⟨⟩
    exact ⟨_, 0, rfl⟩
  · simp only [if_neg hroot]
    exact resolveComponents_searched _ _ _

theorem findFile_searched (s : ChainFS) (filename : List UInt8) :
    Searched s (chainfsFindFile s filename) := by
  unfold chainfsFindFile
  by_cases hslash : slash ∈ filename
  · rw [if_pos hslash]
    exact resolvePath_searched s filename
  · rw [if_neg hslash]
    exact findInDirectory_searched _ _ _

/-! ## The loop -/

/-- The loop of `chainfs_read_file`; `none` if it has not ended after `fuel`
iterations. -/
def readLoop (s : ChainFS) (buffer : Memory) (bufferSize : ℕ) :
    ℕ → ℕ → ℕ → ℕ → Option (ChainFS × Memory × ℕ)
  | 0, _, _, _ => none
  | fuel + 1, remaining, copied, current =>
      if 0 < remaining ∧ current ≠ chainfsEofMarker ∧
          copied < bufferSize then
        let s := pataReadSector s (wrap32 (s.dataAreaStart + current))
        let toCopy :=
          if chainfsBlockSize < remaining then chainfsBlockSize else remaining
        let toCopy :=
          if bufferSize < wrap32 (copied + toCopy) then bufferSize - copied
          else toCopy
        let buffer := copyBytes buffer copied s.sectorBuffer 0 toCopy
        let copied := wrap32 (copied + toCopy)
        let remaining := remaining - toCopy
        if 0 < remaining then
          match chainfsReadBlockMapEntry s current with
          | (s, none) => some (s, buffer, copied)
          | (s, some next) =>
              readLoop s buffer bufferSize fuel remaining copied next
        else some (s, buffer, copied)
      else some (s, buffer, copied)

/-- The loop ends within as many iterations as there are bytes left. -/
theorem readLoop_ends (s : ChainFS) (buffer : Memory)
    (bufferSize fuel fuel' remaining copied current : ℕ)
    (hfuel : remaining < fuel) (hfuel' : remaining < fuel')
    (hsum : copied + remaining < 2 ^ 32) :
    readLoop s buffer bufferSize fuel remaining copied current =
      some (readChain s buffer bufferSize fuel' remaining copied current) := by
  induction fuel generalizing s buffer fuel' remaining copied current with
  | zero => omega
  | succ fuel ih =>
      obtain ⟨fuel', rfl⟩ : ∃ k, fuel' = k + 1 := ⟨fuel' - 1, by omega⟩
      rw [readLoop, readChain]
      by_cases hrun : 0 < remaining ∧ current ≠ chainfsEofMarker ∧
          copied < bufferSize
      · rw [if_pos hrun, if_pos hrun]
        have hcopy := transferInto_eq (n := min remaining 512)
          (Nat.le_of_lt hrun.2.2) (by omega)
        simp only [transfer_eq, hcopy]
        generalize hn : min (min remaining 512) (bufferSize - copied) = n
        by_cases hmore : 0 < remaining - n
        · simp only [if_pos hmore]
          cases chainfsReadBlockMapEntry (pataReadSector s
              (wrap32 (s.dataAreaStart + current))) current with
          | mk s₁ next =>
              cases next with
              | none => rfl
              | some next =>
                  have hcopied : wrap32 (copied + n) = copied + n :=
                    wrap32_of_lt (by omega)
                  exact ih _ _ _ _ _ _ (by omega) (by omega) (by omega)
        · simp only [if_neg hmore]
      · rw [if_neg hrun, if_neg hrun]

/-! ## The call -/

/-- The blocks that the bytes to read take. -/
def readBlocks (e : FileEntry) (bufferSize : ℕ) : ℕ :=
  (min e.size bufferSize + 511) / 512

/-- What a read of the entry leaves: the state, the buffer and `*bytes_read`.
A block outside the map counts as the last one of its chain. -/
structure SafeRead (s : ChainFS) (e : FileEntry) (buffer : Memory)
    (bufferSize : ℕ) (out : ChainFS × Memory × ℕ) : Prop where
  ends : ∀ fuel, e.size < fuel →
    readLoop s buffer bufferSize fuel e.size 0 e.startBlock = some out
  inside : ∀ x, bufferSize ≤ x → out.2.1 x = buffer x
  bounded : out.2.2 ≤ min e.size bufferSize
  complete : ∀ bs, bs = s.chainFrom (readBlocks e bufferSize) e.startBlock →
    readBlocks e bufferSize ≤ bs.length →
    out.2.2 = min e.size bufferSize ∧
      ∀ i < out.2.2, out.2.1 i = s.storedByte bs i

theorem readChain_safe (s : ChainFS) (e : FileEntry) (buffer : Memory)
    (bufferSize : ℕ) (hsize : e.size < 2 ^ 32) :
    SafeRead s e buffer bufferSize
      (readChain s buffer bufferSize (e.size + 1) e.size 0 e.startBlock) := by
  obtain ⟨m, buffer', hread, hbytes, hout⟩ := readChain_eq s buffer bufferSize
    (e.size + 1) e.size 0 e.startBlock (k := min e.size bufferSize)
    (by omega) (by omega) rfl rfl rfl
  simp only [Nat.zero_add] at hread hbytes hout
  rw [hread]
  constructor
  · intro fuel hfuel
    rw [← hread]
    exact readLoop_ends s buffer bufferSize fuel _ _ _ _ hfuel (by omega)
      (by omega)
  · intro x hx
    exact hout x (Or.inr (by omega))
  · exact Nat.min_le_left _ _
  · rintro bs rfl hlen
    have hheld : min (min e.size bufferSize) (512 * (s.chainFrom
        (readBlocks e bufferSize) e.startBlock).length) =
        min e.size bufferSize := by
      simp only [readBlocks] at hlen ⊢
      omega
    exact ⟨hheld, hbytes⟩

/-- On any disk a file that is found is read safely. -/
theorem chainfsReadFile_safe (s : ChainFS) (filename : List UInt8)
    (buffer : Memory) (bufferSize : ℕ) :
    match chainfsFindFile s filename with
    | (s₁, none) =>
        chainfsReadFile s filename buffer bufferSize = (s₁, none)
    | (s₁, some f) => s₁.disk = s.disk ∧ ∃ out,
        chainfsReadFile s filename buffer bufferSize =
          (out.1, some out.2) ∧
        SafeRead s₁ f.entry buffer bufferSize out := by
  obtain ⟨⟨m, hstate⟩, hentry⟩ := findFile_searched s filename
  unfold chainfsReadFile
  cases hfind : chainfsFindFile s filename with
  | mk s₁ found =>
      rw [hfind] at hstate hentry
      cases found with
      | none => rfl
      | some f =>
          obtain ⟨m', i, hf⟩ := hentry f rfl
          have hsize : f.entry.size < 2 ^ 32 := by
            rw [hf]
            exact entryAt_size_lt m' i
          have hdisk : s₁.disk = s.disk := by
            rw [show s₁ = { s with sectorBuffer := m } from hstate]
          exact ⟨hdisk, _, rfl,
            readChain_safe s₁ f.entry buffer bufferSize hsize⟩

end Otsos
