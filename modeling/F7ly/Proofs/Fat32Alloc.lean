import F7ly.Fs.Fat32Mount
import F7ly.Lib.Run

/-!
# Where an allocated cluster lies

`alloc_clus` goes through every entry of the FAT, and a FAT is a whole number of sectors:
it has entries for clusters that the volume does not have, and two at its start for none
at all. So the cluster it returns is one of the volume only if the FAT says so: the first
two entries are taken, and there is a free one among those of the data clusters. What
`fat32_load_mount_info` accepts does not even say that the data area starts inside the
volume.
-/

namespace F7ly.Fs.Fat32

open List

/-- Entry `k` of the first FAT. -/
def MntFs.entry (fat : MntFs) (d : Device) (k : Nat) : Nat :=
  leAt (d.sectors ((fat.bpb.rsvdSecCnt.toNat + k / fat.entPerSec) % 2 ^ 32))
    (4 * (k % fat.entPerSec)) 4

def MntFs.dataStart (fat : MntFs) : Nat :=
  fat.bpb.rsvdSecCnt.toNat + fat.bpb.fatCnt.toNat * fat.bpb.fatSz.toNat

def MntFs.entries (fat : MntFs) : Nat := fat.entPerSec * fat.bpb.fatSz.toNat

/-- A cluster that is handed out: one of the data area, free before, and cleared by writes
to its own sectors, which lie in the volume. The first write marks it in the FAT. -/
structure MntFs.Handed (fat : MntFs) (d : Device) (clus : UInt32) (d' : Device) : Prop where
  data : 2 ≤ clus.toNat ∧ clus.toNat ≤ fat.dataClusCnt.toNat + 1
  free : fat.entry d clus.toNat = 0
  zeroed : ∃ sec zeroed, d'.written = d.written ++ sec :: zeroed ∧ ∀ s ∈ zeroed,
    (∃ i < fat.bpb.secPerClus.toNat,
      s = fat.dataStart + (clus.toNat - 2) * fat.bpb.secPerClus.toNat + i) ∧
    s < fat.bpb.totSec.toNat

/-- What `fat32_load_mount_info` accepts. -/
structure MntFs.Loaded (fat : MntFs) : Prop where
  entPerSec : fat.entPerSec = 128
  secPerClus : 0 < fat.bpb.secPerClus.toNat
  firstDataSec : fat.firstDataSec.toNat = fat.dataStart % 2 ^ 32
  dataClusCnt : fat.dataClusCnt.toNat =
    (fat.bpb.totSec.toNat + 2 ^ 32 - fat.firstDataSec.toNat) % 2 ^ 32 /
      fat.bpb.secPerClus.toNat

theorem loadMountInfo_loaded {d : Device} {fat : MntFs} (h : loadMountInfo d = .ok fat) :
    fat.Loaded := by
  rw [loadMountInfo] at h
  split at h
  · cases h
  dsimp only at h
  split at h
  · cases h
  split at h
  · cases h
  next hpos hsize =>
  cases h
  generalize loadBpb (d.sectors 0) = bpb at *
  refine ⟨?_, ?_, ?_, ?_⟩
  · rw [MntFs.entPerSec, ← not_not.mp hsize]
    rfl
  · exact Nat.pos_of_ne_zero fun h0 => hpos (UInt8.toNat_inj.mp h0)
  · simp [MntFs.dataStart]
  · simp only [UInt32.toNat_div, UInt32.toNat_sub, UInt8.toNat_toUInt32]
    have hlt := (bpb.rsvdSecCnt.toUInt32 + bpb.fatCnt.toUInt32 * bpb.fatSz).toNat_lt
    generalize (bpb.rsvdSecCnt.toUInt32 + bpb.fatCnt.toUInt32 * bpb.fatSz).toNat = first at *
    rw [show 2 ^ 32 - first + bpb.totSec.toNat = bpb.totSec.toNat + 2 ^ 32 - first by omega]

namespace MntFs

variable {fat : MntFs} {d : Device}

theorem entry_eq (h : fat.entPerSec = 128) {I j : Nat} (hj : j < 128) {sec : UInt32}
    (hsec : sec.toNat = (fat.bpb.rsvdSecCnt.toNat + I) % 2 ^ 32) :
    fat.entry d (128 * I + j) = leAt (d.sectors sec.toNat) (4 * j) 4 := by
  rw [entry, h, hsec, show (128 * I + j) / 128 = I by omega, show (128 * I + j) % 128 = j by omega]

/-- The first free entry from sector `I` of the FAT on. -/
structure FirstFree (fat : MntFs) (d : Device) (I n e : Nat) : Prop where
  lower : 128 * I ≤ e
  upper : e < 128 * (I + n)
  free : fat.entry d e = 0
  before : ∀ k, 128 * I ≤ k → k < e → fat.entry d k ≠ 0

theorem allocLoop_spec (h : fat.entPerSec = 128) (n I : Nat) {i sec : UInt32}
    (hi : i = .ofNat I) (hsec : sec = .ofNat (fat.bpb.rsvdSecCnt.toNat + I)) :
    (fat.allocLoop n i sec d = none ∧ ∀ k, 128 * I ≤ k → k < 128 * (I + n) → fat.entry d k ≠ 0) ∨
    ∃ e, FirstFree fat d I n e ∧ ∃ s data, fat.allocLoop n i sec d =
        some (.ofNat e, fat.zeroClus (d.bwrite s data) (.ofNat e)) := by
  induction n generalizing I i sec with
  | zero => exact .inl ⟨rfl, fun k hlo hhi => by omega⟩
  | succ n ih =>
      have hnat : sec.toNat = (fat.bpb.rsvdSecCnt.toNat + I) % 2 ^ 32 := by
        rw [hsec]
        simp
      have hentry := fun j (hj : j < 128) => entry_eq (d := d) h (I := I) hj hnat
      rw [allocLoop]
      cases hfind : fat.freeEntry (d.sectors sec.toNat) with
      | some j =>
          rw [freeEntry, h] at hfind
          obtain ⟨hzero, hj, hbefore⟩ := find?_range_eq_some.mp hfind
          have hj := mem_range.mp hj
          refine .inr ⟨128 * I + j, ⟨by omega, by omega, ?_, fun k hlo hhi => ?_⟩, sec.toNat,
            setWord (d.sectors sec.toNat) (4 * j) (eoc + 7), ?_⟩
          · rw [hentry j hj]
            exact of_decide_eq_true hzero
          · have hk := hbefore (k - 128 * I) (by omega)
            rw [← hentry _ (by omega), show 128 * I + (k - 128 * I) = k by omega] at hk
            simpa using hk
          · have hclus : i * .ofNat fat.entPerSec + .ofNat j = UInt32.ofNat (128 * I + j) := by
              rw [hi, h, UInt32.ofNat_add, UInt32.ofNat_mul, UInt32.mul_comm]
            rw [← hclus]
      | none =>
          have hnone : ∀ k, 128 * I ≤ k → k < 128 * (I + 1) → fat.entry d k ≠ 0 := by
            intro k hlo hhi
            have hk := find?_range_eq_none.mp hfind (k - 128 * I) (by omega)
            rw [← hentry _ (by omega), show 128 * I + (k - 128 * I) = k by omega] at hk
            simpa using hk
          have hi' : i + 1 = UInt32.ofNat (I + 1) := by rw [hi, UInt32.ofNat_add]; rfl
          have hsec' : sec + 1 = UInt32.ofNat (fat.bpb.rsvdSecCnt.toNat + (I + 1)) := by
            rw [hsec, ← Nat.add_assoc, UInt32.ofNat_add _ 1]
            rfl
          rcases ih (I + 1) hi' hsec' with ⟨hloop, hrest⟩ | ⟨e, he, s, data, hloop⟩
          · refine .inl ⟨hloop, fun k hlo hhi => ?_⟩
            rcases Nat.lt_or_ge k (128 * (I + 1)) with hk | hk
            · exact hnone k hlo hk
            · exact hrest k hk (by omega)
          · have hlower := he.lower
            have hupper := he.upper
            refine .inr ⟨e, ⟨by omega, by omega, he.free, fun k hlo hhi => ?_⟩, s, data, hloop⟩
            rcases Nat.lt_or_ge k (128 * (I + 1)) with hk | hk
            · exact hnone k hlo hk
            · exact he.before k hk hhi

theorem zeroLoop_written (n : Nat) (sec : UInt32) (d : Device) :
    (zeroLoop n sec d).written = d.written ++ (range n).map fun i => (sec.toNat + i) % 2 ^ 32 := by
  induction n generalizing sec d with
  | zero => simp [zeroLoop]
  | succ n ih =>
      rw [zeroLoop, ih, range_succ_eq_map, Device.bwrite]
      simp [Nat.add_assoc, Nat.add_comm 1]

theorem zeroClus_written (h : fat.Loaded) {clus : UInt32} (hclus : 2 ≤ clus.toNat) (d : Device) :
    (fat.zeroClus d clus).written = d.written ++ (range fat.bpb.secPerClus.toNat).map
      fun i => (fat.dataStart + (clus.toNat - 2) * fat.bpb.secPerClus.toNat + i) % 2 ^ 32 := by
  have hsub : (clus - 2).toNat = clus.toNat - 2 :=
    UInt32.toNat_sub_of_le _ _ (UInt32.le_iff_toNat_le.mpr hclus)
  have hfirst : (fat.firstSecOfClus clus).toNat =
      (fat.dataStart + (clus.toNat - 2) * fat.bpb.secPerClus.toNat) % 2 ^ 32 := by
    rw [firstSecOfClus, UInt32.toNat_add, h.firstDataSec, UInt32.toNat_mul, hsub,
      UInt8.toNat_toUInt32, ← Nat.add_mod, Nat.add_comm]
  rw [zeroClus, zeroLoop_written, hfirst]
  simp [Nat.mod_add_mod]

theorem cluster_inside (h : fat.Loaded) (hstart : fat.dataStart ≤ fat.bpb.totSec.toNat)
    {c : Nat} (hlo : 2 ≤ c) (hhi : c ≤ fat.dataClusCnt.toNat + 1) :
    fat.dataStart + (c - 2) * fat.bpb.secPerClus.toNat + fat.bpb.secPerClus.toNat ≤
      fat.bpb.totSec.toNat := by
  have htot := fat.bpb.totSec.toNat_lt
  have hcount := h.dataClusCnt
  have hfirst : fat.dataStart % 2 ^ 32 = fat.dataStart := Nat.mod_eq_of_lt (by omega)
  rw [h.firstDataSec, hfirst, show (fat.bpb.totSec.toNat + 2 ^ 32 - fat.dataStart) % 2 ^ 32 =
      fat.bpb.totSec.toNat - fat.dataStart by omega] at hcount
  have hclusters : fat.dataClusCnt.toNat * fat.bpb.secPerClus.toNat ≤
      fat.bpb.totSec.toNat - fat.dataStart := by
    rw [hcount]
    exact Nat.div_mul_le_self _ _
  have hle : (c - 2) * fat.bpb.secPerClus.toNat + fat.bpb.secPerClus.toNat ≤
      fat.dataClusCnt.toNat * fat.bpb.secPerClus.toNat := by
    rw [← Nat.succ_mul]
    exact Nat.mul_le_mul_right _ (by omega)
  omega

theorem handed_iff (h : fat.Loaded) {clus : UInt32} {s : Nat} {data : Nat → UInt8} :
    fat.Handed d clus (fat.zeroClus (d.bwrite s data) clus) ↔
      (2 ≤ clus.toNat ∧ clus.toNat ≤ fat.dataClusCnt.toNat + 1) ∧
        fat.entry d clus.toNat = 0 ∧ fat.dataStart ≤ fat.bpb.totSec.toNat := by
  have hwritten := fun hlo : 2 ≤ clus.toNat => zeroClus_written h hlo (d.bwrite s data)
  simp only [Device.bwrite, append_assoc] at hwritten
  constructor
  · intro ⟨hdata, hfree, s', zeroed, hsplit, hzeroed⟩
    refine ⟨hdata, hfree, ?_⟩
    have heq := append_cancel_left ((hwritten hdata.1).symm.trans hsplit)
    obtain ⟨-, rfl⟩ := cons.inj heq
    -- The first sector that is cleared is one of the cluster and lies in the volume.
    obtain ⟨⟨i, -, hi⟩, hlt⟩ := hzeroed _ (mem_map_of_mem
      (mem_range.mpr h.secPerClus))
    omega
  · intro ⟨hdata, hfree, hstart⟩
    have hinside := cluster_inside h hstart hdata.1 hdata.2
    have htot := fat.bpb.totSec.toNat_lt
    refine ⟨hdata, hfree, s, _, hwritten hdata.1, fun sec hsec => ?_⟩
    obtain ⟨i, hi, rfl⟩ := mem_map.mp hsec
    have hi := mem_range.mp hi
    rw [Nat.mod_eq_of_lt (by omega)]
    exact ⟨⟨i, hi, rfl⟩, by omega⟩

theorem allocClus_spec (h : fat.Loaded) (d : Device) :
    (fat.allocClus d = none ∧ ∀ k < fat.entries, fat.entry d k ≠ 0) ∨
    ∃ e < fat.entries, fat.entry d e = 0 ∧ (∀ k < e, fat.entry d k ≠ 0) ∧
      ∃ s data, fat.allocClus d = some (.ofNat e, fat.zeroClus (d.bwrite s data) (.ofNat e)) := by
  have hentries : fat.entries = 128 * (0 + fat.bpb.fatSz.toNat) := by
    rw [entries, h.entPerSec, Nat.zero_add]
  have hsec : fat.bpb.rsvdSecCnt.toUInt32 = .ofNat (fat.bpb.rsvdSecCnt.toNat + 0) := by simp
  rcases allocLoop_spec (d := d) h.entPerSec fat.bpb.fatSz.toNat 0 (i := 0) rfl hsec with
    ⟨hloop, hnone⟩ | ⟨e, he, s, data, hloop⟩
  · exact .inl ⟨hloop, fun k hk => hnone k (Nat.zero_le _) (hentries ▸ hk)⟩
  · exact .inr ⟨e, hentries ▸ he.upper, he.free, fun k hk => he.before k (Nat.zero_le _) hk,
      s, data, hloop⟩

/-- The cluster is the one of the model that has the FAT as its entries. -/
theorem allocClus_cluster (h : fat.Loaded) (hsmall : fat.entries ≤ 2 ^ 32) {g : Geometry}
    {v : Volume} (hentries : g.fatEntries = fat.entries) (hfat : v.fat = fat.entry d) :
    (fat.allocClus d).map (fun r => r.1.toNat) = (Fat32.allocClus g v).map Prod.fst := by
  rw [Fat32.allocClus, hentries, hfat]
  rcases allocClus_spec h d with ⟨hloop, hnone⟩ | ⟨e, hlt, hfree, hbefore, s, data, hloop⟩
  · have hfind : (range fat.entries).find? (fat.entry d · = 0) = none :=
      find?_range_eq_none.mpr fun k hk => by simp [hnone k hk]
    rw [hloop, hfind]
    rfl
  · have hfind : (range fat.entries).find? (fat.entry d · = 0) = some e :=
      find?_range_eq_some.mpr ⟨by simp [hfree], mem_range.mpr hlt,
        fun k hk => by simp [hbefore k hk]⟩
    rw [hloop, hfind]
    simp only [Option.map_some, UInt32.toNat_ofNat']
    rw [Nat.mod_eq_of_lt (by omega)]

end MntFs

/-- For every volume that is accepted and everything its FAT may hold, a cluster that is
returned is one of the data area, free before and cleared inside the volume, exactly if
either no entry is free, or the data area starts inside the volume, the first two entries
are taken, and one of a data cluster is free. -/
theorem allocClus_handed_iff {boot : Device} {fat : MntFs} (h : loadMountInfo boot = .ok fat)
    (d : Device) :
    (∀ clus d', fat.allocClus d = some (clus, d') → fat.Handed d clus d') ↔
      (∀ k < fat.entries, fat.entry d k ≠ 0) ∨
        fat.dataStart ≤ fat.bpb.totSec.toNat ∧ fat.entry d 0 ≠ 0 ∧ fat.entry d 1 ≠ 0 ∧
          ∃ k ≤ fat.dataClusCnt.toNat + 1, k < fat.entries ∧ k < 2 ^ 32 ∧ fat.entry d k = 0 := by
  have hloaded := loadMountInfo_loaded h
  have hspec := MntFs.allocClus_spec hloaded d
  constructor
  · intro hall
    rcases hspec with ⟨-, hnone⟩ | ⟨e, hlt, -, hbefore, s, data, hloop⟩
    · exact .inl hnone
    · obtain ⟨⟨hlo, hhi⟩, hfree, hstart⟩ :=
        (MntFs.handed_iff hloaded).mp (hall _ _ hloop)
      have hle : (UInt32.ofNat e).toNat ≤ e := by
        exact Nat.mod_le _ _
      exact .inr ⟨hstart, hbefore 0 (by omega), hbefore 1 (by omega), _, hhi, by omega,
        UInt32.toNat_lt _, hfree⟩
  · intro hcond clus d' halloc
    rcases hspec with ⟨hloop, -⟩ | ⟨e, hlt, hzero, hbefore, s, data, hloop⟩
    · rw [hloop] at halloc
      cases halloc
    · rw [hloop] at halloc
      cases halloc
      rcases hcond with hnone | ⟨hstart, h0, h1, k, hk, -, hsmall, hfree⟩
      · exact absurd hzero (hnone e hlt)
      · have hek : e ≤ k := Nat.not_lt.mp fun hlt => hbefore k hlt hfree
        have hne0 : e ≠ 0 := fun h => h0 (h ▸ hzero)
        have hne1 : e ≠ 1 := fun h => h1 (h ▸ hzero)
        have hclus : (UInt32.ofNat e).toNat = e := by
          rw [UInt32.toNat_ofNat', Nat.mod_eq_of_lt (by omega)]
        refine (MntFs.handed_iff hloaded).mpr ⟨by omega, ?_, hstart⟩
        rw [hclus]
        exact hzero

/-- Four sectors: the boot sector, one FAT of which `used` entries are taken, and two data
clusters of one sector each. -/
def tinyVolume (used : Nat) : Device where
  sectors
    | 0, 12 => 2
    | 0, 13 => 1
    | 0, 14 => 1
    | 0, 16 => 1
    | 0, 32 => 4
    | 0, 36 => 1
    | 0, 44 => 2
    | 0, 82 => 0x46
    | 0, 83 => 0x41
    | 0, 84 => 0x54
    | 0, 85 => 0x33
    | 0, 86 => 0x32
    | 1, i => if i < 4 * used then 0xff else 0
    | _, _ => 0
  written := []

def tinyFat : MntFs where
  bpb :=
    { bytsPerSec := 512, secPerClus := 1, rsvdSecCnt := 1, fatCnt := 1, hiddSec := 0
      totSec := 4, fatSz := 1, rootClus := 2 }
  firstDataSec := 2
  dataSecCnt := 2
  dataClusCnt := 2
  bytsPerClus := 512

theorem allocClus_handed_iff_tiny :
    loadMountInfo (tinyVolume 3) = .ok tinyFat ∧
      ((∀ clus d', tinyFat.allocClus (tinyVolume 3) = some (clus, d') →
          tinyFat.Handed (tinyVolume 3) clus d') ↔
        (∀ k < tinyFat.entries, tinyFat.entry (tinyVolume 3) k ≠ 0) ∨
          tinyFat.dataStart ≤ tinyFat.bpb.totSec.toNat ∧
            tinyFat.entry (tinyVolume 3) 0 ≠ 0 ∧ tinyFat.entry (tinyVolume 3) 1 ≠ 0 ∧
            ∃ k ≤ tinyFat.dataClusCnt.toNat + 1, k < tinyFat.entries ∧ k < 2 ^ 32 ∧
              tinyFat.entry (tinyVolume 3) k = 0) :=
  have h : loadMountInfo (tinyVolume 3) = .ok tinyFat := rfl
  ⟨h, allocClus_handed_iff h (tinyVolume 3)⟩

theorem allocClus_cluster_tiny :
    (tinyFat.allocClus (tinyVolume 3)).map (fun r => r.1.toNat) =
      (Fat32.allocClus ⟨2, 2, 1, 128, by decide, by decide, by decide⟩
        ⟨tinyFat.entry (tinyVolume 3), fun _ _ => 0⟩).map Prod.fst :=
  have h : loadMountInfo (tinyVolume 3) = .ok tinyFat := rfl
  MntFs.allocClus_cluster (loadMountInfo_loaded h) (by decide) rfl rfl

/-- With both data clusters taken, cluster 4 is returned, and sector 4 is cleared. -/
theorem allocClus_outside : loadMountInfo (tinyVolume 4) = .ok tinyFat ∧
    ∃ d', tinyFat.allocClus (tinyVolume 4) = some (4, d') ∧
      d'.written = [1, tinyFat.bpb.totSec.toNat] ∧ ¬tinyFat.Handed (tinyVolume 4) 4 d' :=
  ⟨rfl, _, rfl, rfl, fun h => absurd h.data.2 (by decide)⟩

end F7ly.Fs.Fat32
