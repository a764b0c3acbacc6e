import Otsos.ChainFS.BlockMap

/-!
# File contents

Writing a file stores its bytes in the data sectors of the blocks it was given
and chains them in the map; reading follows a chain and copies the bytes out.
Reading what was written gives the data back.
-/

namespace Otsos

open Lib

variable {g : Geometry} {s : ChainFS} {d d' : ℕ → Memory}
  {data buffer : Memory} {size bufferSize : ℕ} {bs : List ℕ}

/-- The blocks a file may use. -/
structure Geometry.Usable (g : Geometry) (b : ℕ) : Prop where
  mapped : g.Mapped b
  inRange : b < g.dataBlocks
  addressable : g.dataStart + b < 2 ^ 32

theorem Geometry.Usable.sector {b : ℕ} (h : g.Usable b) :
    wrap32 (g.dataStart + b) = g.dataStart + b :=
  wrap32_of_lt h.addressable

theorem Geometry.Usable.lt_eof {b : ℕ} (h : g.Usable b) :
    b < chainfsEofMarker := by
  have hlt := h.addressable
  simp only [Geometry.dataStart] at hlt
  unfold chainfsEofMarker
  omega

theorem Geometry.eof_not_mem (hbs : ∀ b ∈ bs, g.Usable b) :
    chainfsEofMarker ∉ bs := by
  intro hmem
  exact Nat.lt_irrefl _ (hbs _ hmem).lt_eof

/-! ## Writing -/

theorem transfer_eq (n : ℕ) :
    (if chainfsBlockSize < n then chainfsBlockSize else n) = min n 512 := by
  by_cases hn : chainfsBlockSize < n
  · rw [if_pos hn]
    unfold chainfsBlockSize at *
    omega
  · rw [if_neg hn]
    unfold chainfsBlockSize at hn
    omega

theorem transferInto_eq {bufferSize copied n : ℕ}
    (hroom : copied ≤ bufferSize) (hsum : copied + n < 2 ^ 32) :
    (if bufferSize < wrap32 (copied + n) then bufferSize - copied else n) =
      min n (bufferSize - copied) := by
  rw [wrap32_of_lt hsum]
  by_cases hn : bufferSize < copied + n
  · rw [if_pos hn]
    omega
  · rw [if_neg hn]
    omega

/-- The disk after `chainfs_write_file` has filled the blocks `bs` with `size`
bytes of data, starting at `data[off]`. -/
structure Written (g : Geometry) (d d' : ℕ → Memory) (data : Memory)
    (size off : ℕ) (bs : List ℕ) : Prop where
  links : ∀ c, g.Mapped c →
    mapLink g d' c = linkAll (mapLink g d) chainfsEofMarker bs c
  bytes : ∀ k (hk : k < bs.length), ∀ i < 512, 512 * k + i < size →
    d' (g.dataStart + bs[k]) i = data (off + (512 * k + i))
  other : ∀ sector, sector < 1 + g.table ∨ g.dataStart ≤ sector →
    (∀ b ∈ bs, sector ≠ g.dataStart + b) → d' sector = d sector

theorem headD_lt {n k : ℕ} (hbs : ∀ b ∈ bs, b < n) (hk : k < n) :
    bs.headD k < n := by
  cases bs with
  | nil => exact hk
  | cons b bs => exact hbs b List.mem_cons_self

/-- The disk after one block was filled and linked to the next. -/
def filledBlock (g : Geometry) (d : ℕ → Memory) (data : Memory)
    (size off b next : ℕ) : ℕ → Memory :=
  setLink g (Function.update d (g.dataStart + b)
    (copyBytes zeroSector 0 data off (min size 512))) b next

theorem filledBlock_sector {b next : ℕ} (hb : g.Mapped b) (off : ℕ) :
    filledBlock g d data size off b next (g.dataStart + b) =
      copyBytes zeroSector 0 data off (min size 512) := by
  rw [filledBlock, setLink_outside hb _ (Or.inr (by omega))]
  exact Function.update_self _ _ _

theorem filledBlock_other {b next off sector : ℕ} (hb : g.Mapped b)
    (hsector : sector < 1 + g.table ∨ g.dataStart ≤ sector)
    (hne : sector ≠ g.dataStart + b) :
    filledBlock g d data size off b next sector = d sector := by
  rw [filledBlock, setLink_outside hb _ hsector]
  exact Function.update_of_ne hne _ _

theorem mapLink_filledBlock {b c next off : ℕ} (hnext : next < 2 ^ 32)
    (hc : g.Mapped c) :
    mapLink g (filledBlock g d data size off b next) c =
      Function.update (mapLink g d) b next c := by
  rw [filledBlock, mapLink_setLink hnext]
  by_cases hcb : c = b
  · subst hcb
    simp
  · rw [Function.update_of_ne hcb, Function.update_of_ne hcb]
    apply mapLink_congr
    apply Function.update_of_ne
    simp only [Geometry.Mapped, Geometry.dataStart] at hc ⊢
    omega

theorem Geometry.Usable.next_lt (hbs : ∀ b ∈ bs, g.Usable b) :
    bs.headD chainfsEofMarker < 2 ^ 32 := by
  refine headD_lt (fun c hc => ?_) (by decide)
  have hlt := (hbs c hc).lt_eof
  unfold chainfsEofMarker at hlt
  omega

/-- One block more in front of the ones written. -/
theorem Written.cons {b off : ℕ} (hbu : g.Usable b) (hb : b ∉ bs)
    (htail : ∀ c ∈ bs, g.Usable c)
    (h : Written g
      (filledBlock g d data size off b (bs.headD chainfsEofMarker)) d' data
      (size - min size 512) (off + min size 512) bs) :
    Written g d d' data size off (b :: bs) := by
  refine ⟨?_, ?_, ?_⟩
  · intro c hc
    rw [h.links c hc, linkAll]
    exact linkAll_congr (mapLink_filledBlock (Geometry.Usable.next_lt htail) hc)
  · intro k hk i hi hsize
    cases k with
    | zero =>
        have hcopy : i < min size 512 := by omega
        have hlast : d' (g.dataStart + b) =
            copyBytes zeroSector 0 data off (min size 512) := by
          rw [h.other _ (Or.inr (by omega)), filledBlock_sector hbu.mapped]
          intro c hc heq
          have hcb : c = b := by omega
          exact hb (hcb ▸ hc)
        have hbyte := copyBytes_inside zeroSector data (d := 0)
          (k := off) hcopy
        rw [Nat.zero_add] at hbyte
        simp only [List.getElem_cons_zero, hlast, Nat.mul_zero, Nat.zero_add]
        exact hbyte
    | succ k =>
        have hfull : min size 512 = 512 := by omega
        have hrec := h.bytes k (by simpa using hk) i hi (by omega)
        simp only [List.getElem_cons_succ, hrec, hfull]
        congr 1
        omega
  · intro sector hsector hne
    rw [h.other sector hsector
      fun c hc => hne c (List.mem_cons_of_mem b hc)]
    exact filledBlock_other hbu.mapped hsector (hne b List.mem_cons_self)

theorem Mounted.writeChain_cons (h : Mounted g s) (data : Memory)
    (size off : ℕ) {b : ℕ} (bs : List ℕ) (hbu : g.Usable b) :
    ∃ m, writeChain s data (b :: bs) size off =
      writeChain { s with
        disk := filledBlock g s.disk data size off b
          (bs.headD chainfsEofMarker)
        sectorBuffer := m
        dataWrites := (g.dataStart + b) :: s.dataWrites } data bs
        (size - min size 512) (off + min size 512) := by
  have hsector : wrap32 (s.dataAreaStart + b) = g.dataStart + b := by
    rw [h.start]
    exact hbu.sector
  let block := copyBytes zeroSector 0 data off (min size 512)
  let s₁ : ChainFS := { s with
    disk := Function.update s.disk (g.dataStart + b) block
    sectorBuffer := block
    dataWrites := (g.dataStart + b) :: s.dataWrites }
  have hs₁ : Mounted g s₁ := h.of_same rfl rfl
  obtain ⟨m, hwrite⟩ :=
    hs₁.writeBlockMapEntry_eq (v := bs.headD chainfsEofMarker) hbu.mapped
  refine ⟨m, ?_⟩
  rw [writeChain]
  simp only [transfer_eq, hsector, pataWriteSector]
  exact congrArg
    (fun r : ChainFS × ℤ => writeChain r.1 data bs (size - min size 512)
      (off + min size 512)) hwrite

theorem Mounted.writeChain_eq (h : Mounted g s) (data : Memory)
    (size off : ℕ) (hbs : ∀ b ∈ bs, g.Usable b) (hnodup : bs.Nodup) :
    ∃ d m, writeChain s data bs size off =
        { s with
          disk := d
          sectorBuffer := m
          dataWrites := (bs.map fun b => g.dataStart + b).reverse ++
            s.dataWrites } ∧
      Written g s.disk d data size off bs := by
  induction bs generalizing s size off with
  | nil =>
      refine ⟨s.disk, s.sectorBuffer, rfl, fun _ _ => rfl, ?_,
        fun _ _ _ => rfl⟩
      intro k hk
      simp at hk
  | cons b bs ih =>
      obtain ⟨hb, hnodup⟩ := List.nodup_cons.mp hnodup
      have hbu := hbs b List.mem_cons_self
      have htail : ∀ c ∈ bs, g.Usable c :=
        fun c hc => hbs c (List.mem_cons_of_mem b hc)
      obtain ⟨m₁, hstep⟩ := h.writeChain_cons data size off bs hbu
      let s₁ : ChainFS := { s with
        disk := filledBlock g s.disk data size off b
          (bs.headD chainfsEofMarker)
        sectorBuffer := m₁
        dataWrites := (g.dataStart + b) :: s.dataWrites }
      have hs₁ : Mounted g s₁ := h.of_same rfl rfl
      obtain ⟨d, m, hrest, hwritten⟩ := ih hs₁
        (size - min size 512) (off + min size 512) htail hnodup
      refine ⟨d, m, ?_, hwritten.cons hbu hb htail⟩
      rw [hstep, hrest]
      simp only [List.map_cons, List.reverse_cons, List.append_assoc,
        List.singleton_append]
      rfl

/-! ## Reading -/

/-- The byte `i` of a file whose blocks are `bs`. -/
def ChainFS.storedByte (s : ChainFS) (bs : List ℕ) (i : ℕ) : UInt8 :=
  s.disk (wrap32 (s.dataAreaStart + bs.getD (i / 512) 0)) (i % 512)

theorem storedByte_head {b i : ℕ} (hi : i < 512) :
    s.storedByte (b :: bs) i = s.disk (wrap32 (s.dataAreaStart + b)) i := by
  simp only [ChainFS.storedByte, Nat.div_eq_of_lt hi, Nat.mod_eq_of_lt hi,
    List.getD_cons_zero]

theorem storedByte_tail {b i : ℕ} :
    s.storedByte (b :: bs) (512 + i) = s.storedByte bs i := by
  simp only [ChainFS.storedByte, show (512 + i) / 512 = i / 512 + 1 by omega,
    show (512 + i) % 512 = i % 512 by omega, List.getD_cons_succ]

/-- The first `n` blocks of the chain of `b`. -/
def ChainFS.chainFrom (s : ChainFS) (n b : ℕ) : List ℕ :=
  Lib.chainFrom chainfsEofMarker s.inMap s.link n b

theorem readChain_done {fuel remaining copied current : ℕ}
    (hdone : ¬ (0 < remaining ∧ current ≠ chainfsEofMarker ∧
      copied < bufferSize)) :
    readChain s buffer bufferSize fuel remaining copied current =
      (s, buffer, copied) := by
  cases fuel with
  | zero => rfl
  | succ fuel => rw [readChain, if_neg hdone]

/-- One iteration copies at most a sector, what is left of the file and what
the buffer has room for. -/
theorem readChain_step {fuel remaining copied current n : ℕ}
    (hrun : 0 < remaining ∧ current ≠ chainfsEofMarker ∧ copied < bufferSize)
    (hsum : copied + remaining < 2 ^ 32)
    (hn : n = min (min remaining 512) (bufferSize - copied)) :
    readChain s buffer bufferSize (fuel + 1) remaining copied current =
      let m := s.disk (wrap32 (s.dataAreaStart + current))
      if 0 < remaining - n then
        match chainfsReadBlockMapEntry { s with sectorBuffer := m }
          current with
        | (s, none) => (s, copyBytes buffer copied m 0 n, copied + n)
        | (s, some next) =>
            readChain s (copyBytes buffer copied m 0 n) bufferSize fuel
              (remaining - n) (copied + n) next
      else ({ s with sectorBuffer := m }, copyBytes buffer copied m 0 n,
        copied + n) := by
  have hcopy := transferInto_eq (n := min remaining 512)
    (Nat.le_of_lt hrun.2.2) (by omega)
  have hcopied : wrap32 (copied + n) = copied + n := wrap32_of_lt (by omega)
  have hstep := readChain.eq_def s buffer bufferSize (fuel + 1) remaining
    copied current
  simp only [if_pos hrun, transfer_eq, hcopy, pataReadSector] at hstep
  simp only [← hn, hcopied] at hstep
  exact hstep

/-- What is left to copy after the first sector. -/
theorem sectors_rest {k t q : ℕ} (ht : t = min k 512)
    (hq : (k + 511) / 512 = q + 1) :
    (k - t + 511) / 512 = q ∧
      ∀ l, min k (512 * (l + 1)) = t + min (k - t) (512 * l) := by
  refine ⟨by omega, ?_⟩
  intro l
  omega

/-- The bytes of the first sector and those of the later ones. -/
theorem storedByte_joined {b copied t r : ℕ} {buffer₁ buffer' : Memory}
    (hhead : ∀ i < t, buffer₁ (copied + i) = s.storedByte (b :: bs) i)
    (hfull : 0 < r → t = 512)
    (hrest : ∀ i < r, buffer' (copied + t + i) = s.storedByte bs i)
    (hout : ∀ x < copied + t, buffer' x = buffer₁ x) :
    ∀ i < t + r, buffer' (copied + i) = s.storedByte (b :: bs) i := by
  intro i hi
  by_cases hlow : i < t
  · rw [hout _ (by omega)]
    exact hhead i hlow
  · have hsector := hfull (by omega)
    obtain ⟨j, rfl⟩ : ∃ j, i = 512 + j := ⟨i - 512, by omega⟩
    have hbyte := hrest j (by omega)
    rw [hsector, Nat.add_assoc] at hbyte
    rw [hbyte, storedByte_tail]

/-- The loop copies as much as the blocks of the chain hold, up to what is
left of the file and to the room in the buffer. -/
theorem readChain_eq (s : ChainFS) (buffer : Memory)
    (bufferSize fuel remaining copied current : ℕ) {k n : ℕ} {bs : List ℕ}
    (hfuel : remaining < fuel) (hsum : copied + remaining < 2 ^ 32)
    (hk : k = min remaining (bufferSize - copied))
    (hbs : bs = s.chainFrom ((k + 511) / 512) current)
    (hn : n = min k (512 * bs.length)) :
    ∃ m buffer', readChain s buffer bufferSize fuel remaining copied
        current = ({ s with sectorBuffer := m }, buffer', copied + n) ∧
      (∀ i < n, buffer' (copied + i) = s.storedByte bs i) ∧
      ∀ x, x < copied ∨ copied + n ≤ x → buffer' x = buffer x := by
  induction fuel generalizing s buffer remaining copied current k n bs with
  | zero => omega
  | succ fuel ih =>
      by_cases hrun : 0 < remaining ∧ current ≠ chainfsEofMarker ∧
          copied < bufferSize
      · obtain ⟨q, hq⟩ : ∃ q, (k + 511) / 512 = q + 1 :=
          ⟨(k + 511) / 512 - 1, by omega⟩
        obtain ⟨t, ht⟩ : ∃ t,
            t = min (min remaining 512) (bufferSize - copied) := ⟨_, rfl⟩
        have htk : t = min k 512 := by
          rw [ht, hk, Nat.min_right_comm]
        obtain ⟨hrest, hcount⟩ := sectors_rest htk hq
        let m₁ := s.disk (wrap32 (s.dataAreaStart + current))
        let buffer₁ := copyBytes buffer copied m₁ 0 t
        rw [hq, ChainFS.chainFrom, Lib.chainFrom, if_neg hrun.2.1] at hbs
        have hhead : ∀ cs, ∀ i < t,
            buffer₁ (copied + i) = s.storedByte (current :: cs) i := by
          intro cs i hi
          have hcopy := copyBytes_inside buffer m₁ (d := copied) (k := 0) hi
          rw [Nat.zero_add] at hcopy
          rw [storedByte_head (by omega)]
          exact hcopy
        have hkeep : ∀ x, x < copied ∨ copied + t ≤ x →
            buffer₁ x = buffer x :=
          fun x hx => copyBytes_outside _ _ hx
        rw [readChain_step hrun hsum ht]
        by_cases hmore : 0 < remaining - t
        · simp only [if_pos hmore]
          by_cases hin : s.InMap current
          · obtain ⟨m₂, hread⟩ :=
              readBlockMapEntry_some { s with sectorBuffer := m₁ } hin
            simp only [m₁] at hread
            rw [if_pos (ChainFS.inMap_iff.mpr hin)] at hbs
            let cs := s.chainFrom q (s.link current)
            have hcs : bs = current :: cs := hbs
            have hleft : k - t = min (remaining - t)
                (bufferSize - (copied + t)) := by
              omega
            have hnext : cs = ChainFS.chainFrom
                { s with sectorBuffer := m₂ } ((k - t + 511) / 512)
                (s.link current) := by
              rw [hrest]
              rfl
            obtain ⟨m, buffer', hloop, hbytes, hout⟩ := ih
              { s with sectorBuffer := m₂ } buffer₁ (remaining - t)
              (copied + t) (s.link current) (by omega) (by omega) hleft
              hnext rfl
            have htotal : n = t + min (k - t) (512 * cs.length) := by
              rw [hn, hcs, List.length_cons, hcount]
            rw [htotal]
            refine ⟨m, buffer', ?_, ?_, ?_⟩
            · rw [hread]
              rw [← Nat.add_assoc]
              exact hloop
            · rw [hcs]
              refine storedByte_joined (hhead cs) (fun hr => ?_) hbytes
                (fun x hx => hout x (Or.inl hx))
              omega
            · intro x hx
              rw [hout x (by omega)]
              exact hkeep x (by omega)
          · rw [readBlockMapEntry_none { s with sectorBuffer := m₁ } hin]
            rw [if_neg (fun h => hin (ChainFS.inMap_iff.mp h))] at hbs
            have htotal : n = t := by
              rw [hn, htk, hbs]
              rfl
            rw [htotal, hbs]
            exact ⟨m₁, buffer₁, rfl, hhead [], hkeep⟩
        · simp only [if_neg hmore]
          have htotal : n = t := by
            rw [hn, hbs, List.length_cons, hcount]
            omega
          rw [htotal, hbs]
          exact ⟨m₁, buffer₁, rfl, hhead _, hkeep⟩
      · have hzero : n = 0 := by
          by_cases heof : current = chainfsEofMarker
          · rw [heof, ChainFS.chainFrom, chainFrom_eof] at hbs
            rw [hn, hbs]
            simp
          · omega
        rw [readChain_done hrun, hzero]
        refine ⟨s.sectorBuffer, buffer, rfl, ?_, fun _ _ => rfl⟩
        intro i hi
        omega

/-- The byte `i` of the file whose chain is `bs`. -/
def chainByte (g : Geometry) (d : ℕ → Memory) (bs : List ℕ) (i : ℕ) :
    UInt8 :=
  d (g.dataStart + bs.getD (i / 512) 0) (i % 512)

/-- The bytes of a file that its chain holds. -/
def heldBytes (size : ℕ) (bs : List ℕ) : ℕ := min size (512 * bs.length)

theorem heldBytes_of_le (h : size ≤ 512 * bs.length) :
    heldBytes size bs = size :=
  Nat.min_eq_left h

theorem Mounted.storedByte_eq (h : Mounted g s)
    (hbs : ∀ b ∈ bs, g.Usable b) {n i : ℕ} (hn : i / 512 < n)
    (hi : i < 512 * bs.length) :
    s.storedByte (bs.take n) i = chainByte g s.disk bs i := by
  have hlt : i / 512 < bs.length := by omega
  have hget : (bs.take n).getD (i / 512) 0 = bs.getD (i / 512) 0 := by
    simp only [List.getD_eq_getElem?_getD, List.getElem?_take, if_pos hn]
  have hmem : bs.getD (i / 512) 0 ∈ bs := by
    rw [List.getD_eq_getElem?_getD, List.getElem?_eq_getElem hlt]
    exact List.getElem_mem hlt
  simp only [ChainFS.storedByte, chainByte, hget, h.start, (hbs _ hmem).sector]

/-- The loop copies as much as the chain holds and the buffer takes. -/
theorem Mounted.readChain_eq (h : Mounted g s) (buffer : Memory)
    (bufferSize fuel size copied : ℕ)
    (hlinks : Links (mapLink g s.disk) chainfsEofMarker bs)
    (hbs : ∀ b ∈ bs, g.Usable b) (hfuel : size < fuel)
    (hsum : copied + size < 2 ^ 32) :
    ∃ m buffer', readChain s buffer bufferSize fuel size copied
        (bs.headD chainfsEofMarker) =
          ({ s with sectorBuffer := m }, buffer',
            copied + min (heldBytes size bs) (bufferSize - copied)) ∧
      (∀ i < min (heldBytes size bs) (bufferSize - copied),
        buffer' (copied + i) = chainByte g s.disk bs i) ∧
      ∀ x, x < copied ∨
          copied + min (heldBytes size bs) (bufferSize - copied) ≤ x →
        buffer' x = buffer x := by
  let k := min size (bufferSize - copied)
  have hchain : s.chainFrom ((k + 511) / 512)
      (bs.headD chainfsEofMarker) = bs.take ((k + 511) / 512) := by
    apply chainFrom_links
    · exact hlinks.congr fun b hb => h.link_eq (hbs b hb).mapped
    · exact fun b hb =>
        ChainFS.inMap_iff.mpr (h.inMap_iff.mpr (hbs b hb).mapped)
    · exact Geometry.eof_not_mem hbs
  have htotal : min (heldBytes size bs) (bufferSize - copied) =
      min k (512 * (bs.take ((k + 511) / 512)).length) := by
    simp only [heldBytes, List.length_take, k]
    omega
  obtain ⟨m, buffer', hread, hbytes, hout⟩ := Otsos.readChain_eq s buffer
    bufferSize fuel size copied _ (k := k) hfuel hsum rfl hchain.symm htotal
  refine ⟨m, buffer', hread, ?_, hout⟩
  intro i hi
  rw [hbytes i hi]
  simp only [heldBytes] at hi
  exact h.storedByte_eq hbs (by omega) (by omega)

end Otsos
