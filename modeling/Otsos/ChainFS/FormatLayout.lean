import Otsos.ChainFS.SimpleNames

/-!
# Which formats are sound

`chainfs_format` computes the sizes of its regions modulo `2 ^ 32` and refuses
nothing.  The regions are those of the documentation when the number of files
can be rounded up, the table leaves room for them, and the number of data
blocks can be rounded up too.
-/

namespace Otsos

open Lib

variable {s : ChainFS} {totalBlocks maxFiles : ℕ}

/-- The regions lie on the disk in their order, the table has room for the
files asked for and the map for the blocks left over. -/
structure SoundLayout (totalBlocks maxFiles M N : ℕ) : Prop where
  table : 1 ≤ M
  files : maxFiles ≤ 8 * M
  fits : 1 + M + N ≤ totalBlocks
  map : totalBlocks - 1 - M - N ≤ 128 * N

/-- What a format that returns 0 is expected to leave.  A sector that keeps
any contents it may have had is not written. -/
structure SoundFormat (s : ChainFS) (totalBlocks maxFiles : ℕ) : Prop where
  layout : SoundLayout totalBlocks maxFiles
    (chainfsFormat s totalBlocks maxFiles).1.fileTableBlockCount
    (chainfsFormat s totalBlocks maxFiles).1.blockMapBlockCount
  inside : ∀ (d : ℕ → Memory) (sector : ℕ), totalBlocks ≤ sector →
    (chainfsFormat { s with disk := d } totalBlocks maxFiles).1.disk sector =
      d sector
  root : ∀ e, e = entryOf (chainfsFormat s totalBlocks maxFiles).1.disk 0 →
    e.status = 1 ∧ e.type = chainfsTypeDir ∧ e.cname = [slash] ∧
      e.parentBlock = 0xFFFFFFFF
  empty : ∀ idx, 1 ≤ idx →
    idx < 8 * (chainfsFormat s totalBlocks maxFiles).1.fileTableBlockCount →
    (entryOf (chainfsFormat s totalBlocks maxFiles).1.disk idx).status = 0
  free : ∀ b,
    b < 128 * (chainfsFormat s totalBlocks maxFiles).1.blockMapBlockCount →
    (chainfsReadBlockMapEntry (chainfsFormat s totalBlocks maxFiles).1 b).2 =
      some chainfsFreeBlock

/-! ## The sizes -/

/-- The file table is `maxFiles` slots rounded up, or empty. -/
theorem formatTableBlocks_cases (hmax : maxFiles < 2 ^ 32) :
    (1 ≤ maxFiles ∧ maxFiles ≤ 2 ^ 32 - 8 ∧
        formatTableBlocks maxFiles = (maxFiles + 7) / 8) ∨
      (maxFiles = 0 ∨ 2 ^ 32 - 8 < maxFiles) ∧
        formatTableBlocks maxFiles = 0 := by
  unfold formatTableBlocks entriesPerBlock wrap32
  omega

/-- With room for the table, the map is the remaining blocks rounded up, or
empty. -/
theorem formatMapBlocks_cases (htotal : totalBlocks < 2 ^ 32)
    (hfits : 1 + formatTableBlocks maxFiles ≤ totalBlocks) :
    (totalBlocks - 1 - formatTableBlocks maxFiles ≤ 2 ^ 32 - 128 ∧
        formatMapBlocks totalBlocks maxFiles =
          (totalBlocks - 1 - formatTableBlocks maxFiles + 127) / 128) ∨
      2 ^ 32 - 128 < totalBlocks - 1 - formatTableBlocks maxFiles ∧
        formatMapBlocks totalBlocks maxFiles = 0 := by
  have hone : sub32 totalBlocks 1 = totalBlocks - 1 :=
    sub32_of_le htotal (by omega)
  have hrest : sub32 (totalBlocks - 1) (formatTableBlocks maxFiles) =
      totalBlocks - 1 - formatTableBlocks maxFiles :=
    sub32_of_le (by omega) (by omega)
  simp only [formatMapBlocks, hone, hrest, mapEntriesPerBlock, wrap32]
  omega

theorem soundLayout_iff (htotal : totalBlocks < 2 ^ 32)
    (hmax : maxFiles < 2 ^ 32) :
    SoundLayout totalBlocks maxFiles (formatTableBlocks maxFiles)
        (formatMapBlocks totalBlocks maxFiles) ↔
      1 ≤ maxFiles ∧ maxFiles ≤ 2 ^ 32 - 8 ∧
        1 + (maxFiles + 7) / 8 ≤ totalBlocks ∧
        totalBlocks - 1 - (maxFiles + 7) / 8 ≤ 2 ^ 32 - 128 := by
  have hcases := formatTableBlocks_cases hmax
  constructor
  · rintro ⟨hpos, -, hfits, hmap⟩
    have hblocks := @formatMapBlocks_cases totalBlocks maxFiles htotal
      (by omega)
    omega
  · rintro ⟨hpos, hround, hfits, hmap⟩
    have hblocks := @formatMapBlocks_cases totalBlocks maxFiles htotal
      (by omega)
    exact ⟨by omega, by omega, by omega, by omega⟩

/-! ## The format -/

theorem chainfsFormat_fields (s : ChainFS) (htotal : totalBlocks < 2 ^ 32) :
    (chainfsFormat s totalBlocks maxFiles).1.disk =
        formattedDisk s.disk totalBlocks maxFiles ∧
      (chainfsFormat s totalBlocks maxFiles).1.fileTableBlockCount =
        formatTableBlocks maxFiles ∧
      (chainfsFormat s totalBlocks maxFiles).1.blockMapBlockCount =
        formatMapBlocks totalBlocks maxFiles ∧
      (chainfsFormat s totalBlocks maxFiles).2 = 0 := by
  obtain ⟨-, -, htable, hmap, -⟩ :=
    formatSuperblock_fields totalBlocks maxFiles htotal
  rw [chainfsFormat_eq s htotal]
  exact ⟨rfl, htable, hmap, rfl⟩

theorem formattedDisk_outside (d : ℕ → Memory) {sector : ℕ}
    (htable : 1 + formatTableBlocks maxFiles +
      formatMapBlocks totalBlocks maxFiles ≤ sector) (hone : 2 ≤ sector) :
    formattedDisk d totalBlocks maxFiles sector = d sector := by
  simp only [formattedDisk]
  rw [if_neg (by omega), if_neg (by omega), if_neg (by omega),
    if_neg (by omega)]

theorem formatRootSector_name :
    (entryAt formatRootSector 0).cname = [slash] := by
  have hbytes : (entryAt formatRootSector 0).name =
      (List.range 30).map fun j =>
        ((((zeroSector.set 0 1).set 1 chainfsTypeDir).set 2 slash).set 3 0)
          (sizeofFileEntry * 0 + 2 + j) := by
    refine List.map_congr_left fun j hj => ?_
    have hj := List.mem_range.mp hj
    simp only [formatRootSector]
    rw [Memory.store_outside _ _ (by omega),
      Memory.store_outside _ _ (by omega),
      Memory.store_outside _ _ (by omega)]
  rw [FileEntry.cname, hbytes]
  decide

/-- A format is sound exactly when the number of files is positive and can be
rounded up, the table fits, and the blocks left over can be rounded up. -/
theorem soundFormat_iff (s : ChainFS) (htotal : totalBlocks < 2 ^ 32)
    (hmax : maxFiles < 2 ^ 32) :
    ((chainfsFormat s totalBlocks maxFiles).2 = 0 →
      SoundFormat s totalBlocks maxFiles) ↔
    1 ≤ maxFiles ∧ maxFiles ≤ 2 ^ 32 - 8 ∧
      1 + (maxFiles + 7) / 8 ≤ totalBlocks ∧
      totalBlocks - 1 - (maxFiles + 7) / 8 ≤ 2 ^ 32 - 128 := by
  obtain ⟨hdisk, htable, hmap, hcode⟩ :=
    @chainfsFormat_fields totalBlocks maxFiles s htotal
  rw [← soundLayout_iff htotal hmax]
  constructor
  · intro hsound
    have hlayout := (hsound hcode).layout
    rwa [htable, hmap] at hlayout
  · intro hlayout _
    have hfresh := formattedDisk_fresh s.disk totalBlocks maxFiles
    have hpos := hlayout.table
    have hfits := hlayout.fits
    constructor
    · rwa [htable, hmap]
    · intro d sector hsector
      rw [(chainfsFormat_fields { s with disk := d } htotal).1]
      exact formattedDisk_outside d (by omega) (by omega)
    · rintro e rfl
      have hslot : 0 < (formatGeometry totalBlocks maxFiles).slots := by
        simp only [Geometry.slots, formatGeometry]
        omega
      rw [hdisk, (hfresh.entries hslot).1 rfl]
      obtain ⟨hstatus, htype, -, hparent⟩ := formatRootSector_root
      exact ⟨hstatus, htype, formatRootSector_name, hparent⟩
    · intro idx hidx hlt
      rw [htable] at hlt
      rw [hdisk]
      exact (hfresh.entries hlt).2 (by omega)
    · intro b hb
      have hmounted := @chainfsFormat_mounted s totalBlocks maxFiles htotal
      have hmapped : (formatGeometry totalBlocks maxFiles).Mapped b := by
        simp only [Geometry.Mapped, formatGeometry]
        omega
      obtain ⟨m, hread⟩ := hmounted.readBlockMapEntry_eq hmapped
      rw [hread, hdisk, hfresh.mapLink_zero hmapped]
      rfl

theorem soundFormat_shell :
    SoundFormat blankDrive 20480 100 :=
  (soundFormat_iff blankDrive (by decide) (by decide)).mpr (by decide)
    (chainfsFormat_fields blankDrive (by decide)).2.2.2

/-- A disk of one sector is formatted for eight files. -/
theorem unsoundFormat_one_sector :
    (chainfsFormat blankDrive 1 8).2 = 0 ∧
      ¬ SoundFormat blankDrive 1 8 := by
  refine ⟨(chainfsFormat_fields blankDrive (by decide)).2.2.2, fun hsound => ?_⟩
  have hcond := (@soundFormat_iff 1 8 blankDrive (by decide)
    (by decide)).mp fun _ => hsound
  exact absurd hcond (by decide)

end Otsos
