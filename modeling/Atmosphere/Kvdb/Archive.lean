import Atmosphere.Kvdb.MemoryKeyValueStore

/-!
# Archives of a key value store

`MemoryKeyValueStore::Save` writes the entries of the index into a buffer of the size that
`GetArchiveSize` computes, and `Load` reads them back. A key is a plain object, of which only the
bytes matter. The writer and the reader refuse to move by zero bytes.

`none` is an abort.
-/

namespace Atmosphere.Kvdb

/-- An entry of the index with its value. -/
structure ArchiveEntry where
  key : List UInt8
  value : List UInt8

/-- A `u32` in memory; a larger number is cut off. -/
def bytesOfU32 (n : ℕ) : List UInt8 :=
  [.ofNat n, .ofNat (n / 0x100), .ofNat (n / 0x10000), .ofNat (n / 0x1000000)]

def u32OfBytes : List UInt8 → ℕ
  | [a, b, c, d] => a.toNat + b.toNat * 0x100 + c.toNat * 0x10000 + d.toNat * 0x1000000
  | _ => 0

/-- `ArchiveHeaderMagic`, "IMKV". -/
def archiveHeaderMagic : List UInt8 := [0x49, 0x4d, 0x4b, 0x56]

/-- `ArchiveEntryMagic`, "IMEN". -/
def archiveEntryMagic : List UInt8 := [0x49, 0x4d, 0x45, 0x4e]

/-- `ArchiveHeader::Make`. -/
def makeHeader (entryCount : ℕ) : List UInt8 :=
  archiveHeaderMagic ++ bytesOfU32 0 ++ bytesOfU32 entryCount

/-- `ArchiveEntryHeader::Make`. -/
def makeEntryHeader (keySize valueSize : ℕ) : List UInt8 :=
  archiveEntryMagic ++ bytesOfU32 keySize ++ bytesOfU32 valueSize

/-- `GetArchiveSize`. -/
def getArchiveSize (keySize : ℕ) (entries : List ArchiveEntry) : ℕ :=
  entries.foldl (fun size e => size + (0xC + keySize + e.value.length)) 0xC

/-! ### Saving -/

/-- A buffer and an offset in it. -/
structure ArchiveWriter where
  buffer : List UInt8
  offset : ℕ

/-- `ArchiveWriter::Write`, whose results abort. -/
def ArchiveWriter.write (w : ArchiveWriter) (src : List UInt8) : Option ArchiveWriter :=
  if w.offset + src.length ≤ w.buffer.length ∧ w.offset < w.offset + src.length then
    some ⟨w.buffer.take w.offset ++ src ++ w.buffer.drop (w.offset + src.length),
      w.offset + src.length⟩
  else none

def ArchiveWriter.writeEntry (w : ArchiveWriter) (e : ArchiveEntry) : Option ArchiveWriter := do
  let w ← w.write (makeEntryHeader e.key.length e.value.length)
  let w ← w.write e.key
  w.write e.value

/-- `Save` up to `Commit`, with the buffer that `new` gives; it returns the writer. -/
def save (buffer : List UInt8) (entries : List ArchiveEntry) : Option ArchiveWriter := do
  let w ← (ArchiveWriter.mk buffer 0).write (makeHeader entries.length)
  entries.foldlM ArchiveWriter.writeEntry w

/-! ### Loading -/

/-- `ArchiveReader::Peek` at an offset. -/
def peek (buffer : List UInt8) (offset size : ℕ) : Except KvdbResult (List UInt8) :=
  if offset + size ≤ buffer.length ∧ offset < offset + size then
    .ok ((buffer.drop offset).take size)
  else .error .invalidKeyValue

/-- Reads a header at an offset: a magic and two numbers. -/
def readHeader (magic buffer : List UInt8) (offset : ℕ) : Except KvdbResult (ℕ × ℕ) := do
  let header ← peek buffer offset 0xC
  if header.take 4 = magic then
    return (u32OfBytes ((header.drop 4).take 4), u32OfBytes (header.drop 8))
  else .error .invalidKeyValue

/-- `ReadEntry` with the sizes that `GetEntrySize` gave, and the offset behind the entry. The
header is the same as before, and a failed read of the key or the value aborts. -/
def readEntry (keySize valueSize : ℕ) (buffer : List UInt8) (offset : ℕ) :
    Option (Except KvdbResult (ArchiveEntry × ℕ)) :=
  match readHeader archiveEntryMagic buffer offset with
  | .error e => some (.error e)
  | .ok (k, v) =>
    if keySize = k ∧ valueSize = v then
      match peek buffer (offset + 0xC) keySize, peek buffer (offset + 0xC + keySize) valueSize with
      | .ok key, .ok value => some (.ok (⟨key, value⟩, offset + 0xC + keySize + valueSize))
      | _, _ => none
    else none

/-- The loop of `Load`, with the number of entries that are left and the index so far. -/
def loadEntries (keySize capacity : ℕ) (buffer : List UInt8) :
    ℕ → ℕ → List ArchiveEntry → Option (Except KvdbResult (List ArchiveEntry))
  | 0, _, entries => some (.ok entries)
  | n + 1, offset, entries =>
    match readHeader archiveEntryMagic buffer offset with
    | .error e => some (.error e)
    | .ok (_, valueSize) =>
      match readEntry keySize valueSize buffer offset with
      | none => none
      | some (.error e) => some (.error e)
      | some (.ok (entry, offset)) =>
        if entries.length < capacity then
          loadEntries keySize capacity buffer n offset (entries ++ [entry])
        else some (.error .outOfKeyResource)

/-- `Load` of an archive; all allocations succeed. -/
def load (keySize capacity : ℕ) (buffer : List UInt8) :
    Option (Except KvdbResult (List ArchiveEntry)) :=
  match readHeader archiveHeaderMagic buffer 0 with
  | .error e => some (.error e)
  | .ok (_, entryCount) => loadEntries keySize capacity buffer entryCount 0xC []

/-! ### The round trip -/

variable {a b keySize capacity : ℕ} {p q r x magic buffer : List UInt8} {e : ArchiveEntry}
  {entries acc : List ArchiveEntry}

theorem u32OfBytes_bytesOfU32 (a : ℕ) : u32OfBytes (bytesOfU32 a) = a % 2 ^ 32 := by
  simp only [bytesOfU32, u32OfBytes, UInt8.toNat_ofNat']
  omega

/-- The bytes of an entry. -/
def archiveEntryBytes (e : ArchiveEntry) : List UInt8 :=
  makeEntryHeader e.key.length e.value.length ++ e.key ++ e.value

theorem length_archiveEntryBytes (e : ArchiveEntry) :
    (archiveEntryBytes e).length = 0xC + e.key.length + e.value.length := by
  rw [archiveEntryBytes, List.length_append, List.length_append]
  rfl

/-- The bytes of an archive. -/
def archiveBytes (entries : List ArchiveEntry) : List UInt8 :=
  makeHeader entries.length ++ entries.flatMap archiveEntryBytes

/-- What can be saved: values that are not empty, and numbers that fit into the headers. -/
structure Archivable (entries : List ArchiveEntry) : Prop where
  count_lt : entries.length < 2 ^ 32
  key_lt : ∀ e ∈ entries, e.key.length < 2 ^ 32
  value_pos : ∀ e ∈ entries, 0 < e.value.length
  value_lt : ∀ e ∈ entries, e.value.length < 2 ^ 32

theorem getArchiveSize_eq (hkey : ∀ e ∈ entries, e.key.length = keySize) :
    getArchiveSize keySize entries = (archiveBytes entries).length := by
  have hfold : ∀ size, entries.foldl (fun size e => size + (0xC + keySize + e.value.length)) size =
      size + (entries.flatMap archiveEntryBytes).length := by
    induction entries with
    | nil => exact fun size => rfl
    | cons e entries ih =>
      intro size
      obtain ⟨he, hkey⟩ := List.forall_mem_cons.mp hkey
      rw [List.foldl_cons, ih hkey, List.flatMap_cons, List.length_append,
        length_archiveEntryBytes, he, Nat.add_assoc]
  rw [getArchiveSize, hfold, archiveBytes, List.length_append]
  rfl

theorem write_append (hsrc : 0 < x.length) (hrest : x.length ≤ r.length) :
    ArchiveWriter.write ⟨p ++ r, p.length⟩ x =
      some ⟨(p ++ x) ++ r.drop x.length, (p ++ x).length⟩ := by
  rw [ArchiveWriter.write, if_pos ⟨by simpa using hrest, by simpa using hsrc⟩]
  simp

theorem writeEntry_append (hkey : 0 < e.key.length) (hvalue : 0 < e.value.length)
    (hrest : (archiveEntryBytes e).length ≤ r.length) :
    ArchiveWriter.writeEntry ⟨p ++ r, p.length⟩ e =
      some ⟨(p ++ archiveEntryBytes e) ++ r.drop (archiveEntryBytes e).length,
        (p ++ archiveEntryBytes e).length⟩ := by
  have hheader : (makeEntryHeader e.key.length e.value.length).length = 0xC := rfl
  rw [length_archiveEntryBytes] at hrest
  rw [ArchiveWriter.writeEntry, write_append (by omega) (by omega), Option.bind_eq_bind,
    Option.bind_some, write_append hkey (by simp; omega), Option.bind_some,
    write_append hvalue (by simp; omega), length_archiveEntryBytes]
  simp [archiveEntryBytes, hheader]

theorem writeEntries_append (hkey : ∀ e ∈ entries, 0 < e.key.length)
    (hvalue : ∀ e ∈ entries, 0 < e.value.length)
    (hrest : (entries.flatMap archiveEntryBytes).length = r.length) :
    entries.foldlM ArchiveWriter.writeEntry ⟨p ++ r, p.length⟩ =
      some ⟨p ++ entries.flatMap archiveEntryBytes,
        (p ++ entries.flatMap archiveEntryBytes).length⟩ := by
  induction entries generalizing p r with
  | nil =>
    obtain rfl := List.length_eq_zero_iff.mp hrest.symm
    simp
  | cons e entries ih =>
    obtain ⟨hkey, hkeys⟩ := List.forall_mem_cons.mp hkey
    obtain ⟨hvalue, hvalues⟩ := List.forall_mem_cons.mp hvalue
    rw [List.flatMap_cons, List.length_append] at hrest
    rw [List.foldlM_cons, writeEntry_append hkey hvalue (by omega), Option.bind_eq_bind,
      Option.bind_some, ih hkeys hvalues (by rw [List.length_drop]; omega), List.flatMap_cons,
      List.append_assoc]

/-- The writer aborts at an empty value. -/
theorem value_pos_of_save {w : ArchiveWriter} (h : save buffer entries = some w) :
    ∀ e ∈ entries, 0 < e.value.length := by
  obtain ⟨w₀, -, hfold⟩ := Option.bind_eq_some_iff.mp h
  clear h
  induction entries generalizing w₀ with
  | nil => exact fun e he => absurd he List.not_mem_nil
  | cons e entries ih =>
    rw [List.foldlM_cons] at hfold
    obtain ⟨w₁, hentry, hfold⟩ := Option.bind_eq_some_iff.mp hfold
    refine List.forall_mem_cons.mpr ⟨?_, ih w₁ hfold⟩
    obtain ⟨_, -, hentry⟩ := Option.bind_eq_some_iff.mp hentry
    obtain ⟨_, -, hvalue⟩ := Option.bind_eq_some_iff.mp hentry
    unfold ArchiveWriter.write at hvalue
    split_ifs at hvalue with hroom
    omega

section RoundTrip

-- The keys are objects of one type.
variable (hpos : 0 < keySize) (hkey : ∀ e ∈ entries, e.key.length = keySize)
include hpos hkey

theorem save_eq (hvalue : ∀ e ∈ entries, 0 < e.value.length)
    (hbuffer : buffer.length = getArchiveSize keySize entries) :
    save buffer entries = some ⟨archiveBytes entries, buffer.length⟩ := by
  have hkeys : ∀ e ∈ entries, 0 < e.key.length := fun e he => hkey e he ▸ hpos
  have hheader : (makeHeader entries.length).length = 0xC := rfl
  rw [getArchiveSize_eq hkey] at hbuffer
  have hlength := hbuffer
  rw [archiveBytes, List.length_append] at hlength
  have hwrite := write_append (p := []) (x := makeHeader entries.length) (r := buffer)
    (by omega) (by omega)
  rw [hbuffer]
  change (ArchiveWriter.write ⟨[] ++ buffer, 0⟩ _).bind _ = _
  erw [hwrite]
  rw [Option.bind_some, writeEntries_append hkeys hvalue (by rw [List.length_drop]; omega)]
  rfl

omit hpos hkey

theorem peek_append (hsrc : 0 < x.length) : peek (p ++ x ++ q) p.length x.length = .ok x := by
  rw [peek, if_pos ⟨by simp, by omega⟩]
  simp

theorem length_of_peek {offset size : ℕ} (h : peek buffer offset size = .ok x) :
    x.length = size := by
  unfold peek at h
  split_ifs at h with hroom
  obtain rfl := Except.ok.inj h
  rw [List.length_take, List.length_drop]
  omega

theorem readHeader_append (hmagic : magic.length = 4) :
    readHeader magic (p ++ (magic ++ bytesOfU32 a ++ bytesOfU32 b) ++ q) p.length =
      .ok (a % 2 ^ 32, b % 2 ^ 32) := by
  have hlength : (magic ++ bytesOfU32 a ++ bytesOfU32 b).length = 0xC := by
    simp [hmagic, bytesOfU32]
  have hpeek := peek_append (p := p) (q := q) (hlength ▸ (by decide : 0 < 0xC))
  rw [hlength] at hpeek
  have htake : (magic ++ bytesOfU32 a ++ bytesOfU32 b).take 4 = magic := by
    rw [List.append_assoc, List.take_left' hmagic]
  have hdrop : (magic ++ bytesOfU32 a ++ bytesOfU32 b).drop 4 = bytesOfU32 a ++ bytesOfU32 b := by
    rw [List.append_assoc, List.drop_left' hmagic]
  have hdrop' : (magic ++ bytesOfU32 a ++ bytesOfU32 b).drop 8 = bytesOfU32 b :=
    List.drop_left' (by rw [List.length_append, hmagic]; rfl)
  rw [readHeader, hpeek]
  change (if _ then Except.ok _ else _) = _
  rw [if_pos htake, hdrop, hdrop', List.take_left' (by rfl : (bytesOfU32 a).length = 4),
    u32OfBytes_bytesOfU32, u32OfBytes_bytesOfU32]

/-- The header of an entry behind some bytes, as far as its numbers fit. -/
theorem readHeader_entry : readHeader archiveEntryMagic (p ++ archiveEntryBytes e ++ q) p.length =
    .ok (e.key.length % 2 ^ 32, e.value.length % 2 ^ 32) := by
  have hbytes : p ++ archiveEntryBytes e ++ q =
      p ++ makeEntryHeader e.key.length e.value.length ++ (e.key ++ e.value ++ q) := by
    simp [archiveEntryBytes]
  rw [hbytes]
  exact readHeader_append rfl

/-- The entry behind some bytes is read. -/
theorem readEntry_append (hkey : 0 < e.key.length) (hkey_lt : e.key.length < 2 ^ 32)
    (hvalue : 0 < e.value.length) (hvalue_lt : e.value.length < 2 ^ 32) :
    readEntry e.key.length e.value.length (p ++ archiveEntryBytes e ++ q) p.length =
      some (.ok (e, (p ++ archiveEntryBytes e).length)) := by
  obtain ⟨header, hheader⟩ : ∃ header, header = makeEntryHeader e.key.length e.value.length :=
    ⟨_, rfl⟩
  have hlength : header.length = 0xC := hheader ▸ rfl
  have hbytes : p ++ archiveEntryBytes e ++ q =
      p ++ header ++ (e.key ++ e.value ++ q) := by simp [archiveEntryBytes, hheader]
  have hkeys := peek_append (p := p ++ header) (q := e.value ++ q) hkey
  have hvalues := peek_append (p := p ++ header ++ e.key) (q := q) hvalue
  rw [readEntry, readHeader_entry, Nat.mod_eq_of_lt hkey_lt, Nat.mod_eq_of_lt hvalue_lt]
  dsimp only
  simp only [List.append_assoc, List.length_append, hlength] at hbytes hkeys hvalues
  have hoffset : (p ++ archiveEntryBytes e).length =
      p.length + 0xC + e.key.length + e.value.length := by
    rw [List.length_append, length_archiveEntryBytes]
    omega
  rw [if_pos ⟨rfl, rfl⟩, hoffset, List.append_assoc, hbytes, hkeys, Nat.add_assoc p.length, hvalues]

/-- An entry that is read has the sizes that its header gives, which are then those asked for. -/
theorem sizes_of_readEntry {valueSize offset offset' : ℕ}
    (h : readEntry keySize valueSize buffer offset = some (.ok (e, offset'))) :
    readHeader archiveEntryMagic buffer offset = .ok (keySize, valueSize) ∧
      e.key.length = keySize ∧ e.value.length = valueSize := by
  unfold readEntry at h
  split at h
  · cases h
  · rename_i k v hheader
    split_ifs at h with hsizes
    split at h
    · rename_i hkey hvalue
      cases h
      obtain ⟨rfl, rfl⟩ := hsizes
      exact ⟨hheader, length_of_peek hkey, length_of_peek hvalue⟩
    · cases h

/-- The loop adds as many entries as it is to read. -/
theorem loadEntries_length {n offset : ℕ} {out : List ArchiveEntry}
    (h : loadEntries keySize capacity buffer n offset acc = some (.ok out)) :
    acc <+: out ∧ out.length = acc.length + n := by
  induction n generalizing offset acc with
  | zero =>
    cases h
    exact ⟨List.prefix_rfl, rfl⟩
  | succ n ih =>
    unfold loadEntries at h
    split at h
    · cases h
    split at h
    · cases h
    · cases h
    split_ifs at h with hroom
    · obtain ⟨hinit, hlength⟩ := ih h
      refine ⟨(List.prefix_append _ _).trans hinit, hlength.trans ?_⟩
      rw [List.length_append, List.length_singleton]
      omega
    · cases h

include hpos hkey

theorem loadEntries_append (hcapacity : acc.length + entries.length ≤ capacity)
    (hvalue : ∀ e ∈ entries, 0 < e.value.length) :
    loadEntries keySize capacity (p ++ entries.flatMap archiveEntryBytes) entries.length p.length
      acc = some (.ok (acc ++ entries)) ↔
    ∀ e ∈ entries, e.key.length < 2 ^ 32 ∧ e.value.length < 2 ^ 32 := by
  induction entries generalizing p acc with
  | nil => simp [loadEntries]
  | cons e entries ih =>
    obtain ⟨hkey, hkeys⟩ := List.forall_mem_cons.mp hkey
    obtain ⟨hvalue, hvalues⟩ := List.forall_mem_cons.mp hvalue
    rw [List.length_cons] at hcapacity
    rw [List.flatMap_cons, ← List.append_assoc, List.length_cons, loadEntries, readHeader_entry,
      List.forall_mem_cons]
    dsimp only
    by_cases hfits : e.key.length < 2 ^ 32 ∧ e.value.length < 2 ^ 32
    · have hread := readEntry_append (p := p) (q := entries.flatMap archiveEntryBytes)
        (hkey ▸ hpos) hfits.1 hvalue hfits.2
      rw [hkey] at hread
      rw [Nat.mod_eq_of_lt hfits.2, hread, and_iff_right hfits]
      dsimp only
      rw [if_pos (by omega), List.append_cons acc e entries]
      refine ih hkeys ?_ hvalues
      rw [List.length_append, List.length_singleton]
      omega
    · -- the entry that is read has the numbers of the header, which are not those of `e`
      refine iff_of_false (fun hload => hfits ?_) fun h => hfits h.1
      split at hload
      · cases hload
      · cases hload
      · rename_i entry offset hread
        obtain ⟨hheader, hentryKey, hentryValue⟩ := sizes_of_readEntry hread
        rw [readHeader_entry] at hheader
        split_ifs at hload
        · obtain ⟨rest, hrest⟩ := (loadEntries_length hload).1
          have hentry : entry = e := by
            rw [List.append_assoc, List.append_cancel_left_eq] at hrest
            exact (List.cons.inj hrest).1
          have hsizes := Prod.mk.inj (Except.ok.inj hheader)
          rw [← hkey] at hsizes
          rw [hentry] at hentryValue
          omega
        · cases hload

theorem load_archiveBytes (hcapacity : entries.length ≤ capacity)
    (hvalue : ∀ e ∈ entries, 0 < e.value.length) :
    load keySize capacity (archiveBytes entries) = some (.ok entries) ↔ Archivable entries := by
  have hheader := readHeader_append (p := []) (q := entries.flatMap archiveEntryBytes) (a := 0)
    (b := entries.length) (by rfl : archiveHeaderMagic.length = 4)
  have hload : load keySize capacity (archiveBytes entries) =
      loadEntries keySize capacity (archiveBytes entries) (entries.length % 2 ^ 32) 0xC [] := by
    rw [load]
    erw [hheader]
  have hentries := @loadEntries_append keySize capacity (makeHeader entries.length) entries []
    hpos hkey (by simpa using hcapacity) hvalue
  rw [hload]
  constructor
  · intro h
    have hcount := (loadEntries_length h).2
    rw [List.length_nil, Nat.zero_add] at hcount
    rw [← hcount] at h
    have hsizes := hentries.mp h
    exact ⟨by omega, fun e he => (hsizes e he).1, hvalue, fun e he => (hsizes e he).2⟩
  · intro h
    rw [Nat.mod_eq_of_lt h.count_lt]
    exact hentries.mpr fun e he => ⟨h.key_lt e he, h.value_lt e he⟩

/-- A store is saved without an abort, in an archive of the computed size, and loaded again as it
was, exactly if its values are not empty and its numbers fit into the headers. -/
theorem load_save_iff (hbuffer : buffer.length = getArchiveSize keySize entries)
    (hcapacity : entries.length ≤ capacity) :
    (∃ w, save buffer entries = some w ∧ w.offset = getArchiveSize keySize entries ∧
      w.buffer.length = getArchiveSize keySize entries ∧
      load keySize capacity w.buffer = some (.ok entries)) ↔ Archivable entries := by
  constructor
  · rintro ⟨w, hsave, -, -, hload⟩
    have hvalue := value_pos_of_save hsave
    rw [save_eq hpos hkey hvalue hbuffer] at hsave
    obtain rfl := Option.some.inj hsave
    exact (load_archiveBytes hpos hkey hcapacity hvalue).mp hload
  · intro h
    exact ⟨_, save_eq hpos hkey h.value_pos hbuffer, hbuffer, (getArchiveSize_eq hkey).symm,
      (load_archiveBytes hpos hkey hcapacity h.value_pos).mpr h⟩

end RoundTrip

/-- Two entries, and a store of larger capacity. -/
theorem load_save_twoEntries : Archivable [⟨[0, 1], [7]⟩, ⟨[2, 3], [8, 9]⟩] ∧
    ∃ w, save (List.replicate 43 0) [⟨[0, 1], [7]⟩, ⟨[2, 3], [8, 9]⟩] = some w ∧ w.offset = 43 ∧
      w.buffer.length = 43 ∧
      load 2 5 w.buffer = some (.ok [⟨[0, 1], [7]⟩, ⟨[2, 3], [8, 9]⟩]) := by
  have h : Archivable [⟨[0, 1], [7]⟩, ⟨[2, 3], [8, 9]⟩] :=
    ⟨by decide, by simp, by simp, by simp⟩
  exact ⟨h, (@load_save_iff 2 5 _ _ (by decide) (by simp) (by decide) (by decide)).mpr h⟩

/-- `Save` aborts where a value has no bytes. -/
theorem save_emptyValue : getArchiveSize 1 [⟨[0], []⟩] = 25 ∧
    save (List.replicate 25 0) [⟨[0], []⟩] = none := by
  refine ⟨rfl, ?_⟩
  rfl

end Atmosphere.Kvdb
