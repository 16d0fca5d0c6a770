import CPractice.Bloom.Interchange

/-!
# Writing a filter and reading it back

`bloom_serialize` writes the version tag and the bytes of a filter; the number of bits is not written,
and `build_bloom` takes it from the length of the buffer.  `bloom_mem_size` returns an `unsigned`, so it
is the number of bytes written only below 2^32.
-/

namespace CPractice.Bloom

/-- A buffer in user memory, whose addresses have 47 bits. -/
structure Buffer where
  bytes : List Byte
  fits : bytes.length < 140737488355328

/-- The filters there are: made by `create_bloom` or `build_bloom`, and filled by `bloom_add`. -/
inductive Made : BloomT → Prop where
  | create (size : BitVec 32) : Made (createBloom size)
  | build {buf : Buffer} {bf : BloomT} (hbuild : buildBloom buf.bytes = some (some bf)) : Made bf
  | add {bf bf' : BloomT} {str : List Byte} (hmade : Made bf) (hadd : bloomAdd bf str = some bf') :
      Made bf'

/-- `memcpy` of `n` bytes to an offset of a buffer. -/
def memcpyAt (buf : List Byte) (offset : ℕ) (src : List Byte) (n : ℕ) : Option (List Byte) :=
  if offset + n ≤ buf.length ∧ n ≤ src.length then
    some (buf.take offset ++ src.take n ++ buf.drop (offset + n))
  else none

def bloomMemSize : Option BloomT → ℕ
  | none => 0
  | some bf => u4 (bloomVersion.length + bf.size >>> 3)

/-- `bloom_serialize`, with the buffer as it is left; a pointer may be nil. -/
def bloomSerializeInto (bf : Option BloomT) (buf : Option (List Byte)) (size : ℕ) :
    Option (ℤ × Option (List Byte)) :=
  match bf, buf with
  | some bf, some dst =>
      if size = 0 then some (-1, buf)
      else if size < bloomMemSize (some bf) then some (-1, buf)
      else do
        let dst ← memcpyAt dst 0 bloomVersion bloomVersion.length
        let dst ← memcpyAt dst bloomVersion.length bf.filter (bf.size >>> 3)
        some (0, some dst)
  | _, _ => some (-1, buf)

/-! ## The number of bits -/

/-- The buffers that `build_bloom` accepts. -/
theorem buildBloom_eq_some_iff {buf : List Byte} {bf : BloomT} :
    buildBloom buf = some (some bf) ↔
      buf = bloomVersion ++ bf.filter ∧ bf.size = u8 (bf.filter.length * 8) := by
  constructor
  · intro h
    refine ⟨?_, buildBloom_eq_some h⟩
    rw [buildBloom] at h
    split_ifs at h with hnil hshort htag
    · cases h
    · cases h
    · obtain rfl := Option.some.inj (Option.some.inj h)
      calc
        buf = buf.take bloomVersion.length ++ buf.drop bloomVersion.length :=
          (List.take_append_drop _ _).symm
        _ = bloomVersion ++ buf.drop bloomVersion.length := by rw [not_not.mp htag]
  · rintro ⟨rfl, hsize⟩
    have hne : bloomVersion ++ bf.filter ≠ [] := by simp [bloomVersion]
    rw [buildBloom, if_neg hne, if_neg (by simp), List.take_left, if_neg (by simp), List.drop_left]
    simp only [← hsize]

theorem setBit_length {array out : List Byte} {pos : ℕ} (h : setBit array pos = some out) :
    out.length = array.length := by
  rcases Option.map_eq_some_iff.mp h with ⟨byte, -, rfl⟩
  exact List.length_set

/-- The loop of `bloom_add` keeps the number of bytes. -/
theorem addLoop_length {capability : ℕ} {str : List Byte} {hashes : List (List Byte → BitVec 32)}
    {filter out : List Byte}
    (h : hashes.foldlM (fun filter hash ↦ do
      let pos ← hashPos capability (hash str)
      setBit filter pos) filter = some out) : out.length = filter.length := by
  induction hashes generalizing filter with
  | nil => rw [Option.some.inj h]
  | cons hash hashes ih =>
      rw [List.foldlM_cons] at h
      rcases Option.bind_eq_some_iff.mp h with ⟨mid, hstep, hrest⟩
      rcases Option.bind_eq_some_iff.mp hstep with ⟨pos, -, hset⟩
      exact (ih hrest).trans (setBit_length hset)

theorem bloomAdd_length {bf bf' : BloomT} {str : List Byte} (h : bloomAdd bf str = some bf') :
    bf'.size = bf.size ∧ bf'.filter.length = bf.filter.length := by
  rcases Option.bind_eq_some_iff.mp h with ⟨filter, hloop, hsome⟩
  obtain rfl := Option.some.inj hsome
  exact ⟨rfl, addLoop_length hloop⟩

/-- The size of every filter is the number of bits of its bytes. -/
theorem Made.size_eq {bf : BloomT} (h : Made bf) : bf.size = bf.filter.length * 8 := by
  induction h with
  | create size => rw [createBloom, List.length_replicate]
  | @build buf bf hbuild =>
      rcases buildBloom_eq_some_iff.mp hbuild with ⟨hbytes, hsize⟩
      have hlength : buf.bytes.length = bloomVersion.length + bf.filter.length := by
        rw [hbytes, List.length_append]
      have hfits := buf.fits
      rw [hsize, u8_of_lt (by omega)]
  | add hmade hadd ih =>
      rcases bloomAdd_length hadd with ⟨hsize, hlength⟩
      rw [hsize, hlength, ih]

/-! ## Writing -/

theorem memcpyAt_eq {buf src : List Byte} {offset : ℕ} (h : offset + src.length ≤ buf.length) :
    memcpyAt buf offset src src.length =
      some (buf.take offset ++ src ++ buf.drop (offset + src.length)) := by
  rw [memcpyAt, if_pos ⟨h, Nat.le_refl _⟩, List.take_length]

section Written

variable {bf : BloomT} (hsize : bf.size = bf.filter.length * 8)

include hsize

theorem size_shiftRight : bf.size >>> 3 = bf.filter.length := by
  rw [Nat.shiftRight_eq_div_pow, hsize]
  omega

theorem bloomSerialize_eq : bloomSerialize bf = bloomVersion ++ bf.filter := by
  rw [bloomSerialize, size_shiftRight hsize, List.take_length]

theorem bloomMemSize_eq (hlt : bloomVersion.length + bf.filter.length < 4294967296) :
    bloomMemSize (some bf) = (bloomSerialize bf).length := by
  rw [bloomMemSize, size_shiftRight hsize, u4_of_lt hlt, bloomSerialize_eq hsize, List.length_append]

/-- With enough room the tag and the bytes are written, and the rest of the buffer is left. -/
theorem bloomSerializeInto_eq {dst : List Byte} {size : ℕ}
    (hroom : (bloomSerialize bf).length ≤ size) (hdst : size ≤ dst.length) :
    bloomSerializeInto (some bf) (some dst) size =
      some (0, some (bloomSerialize bf ++ dst.drop (bloomSerialize bf).length)) := by
  rw [bloomSerialize_eq hsize] at hroom ⊢
  rw [List.length_append] at hroom
  have hmem : bloomMemSize (some bf) ≤ bloomVersion.length + bf.filter.length := by
    rw [bloomMemSize, size_shiftRight hsize]
    unfold u4
    exact Nat.mod_le _ _
  have htag : bloomVersion.length = 10 := rfl
  have hpos : size ≠ 0 := by omega
  have hbytes : bloomVersion.length + bf.filter.length ≤
      (bloomVersion ++ dst.drop bloomVersion.length).length := by
    rw [List.length_append, List.length_drop]
    omega
  rw [bloomSerializeInto, if_neg hpos, if_neg (by omega), memcpyAt_eq (by omega), Option.bind_eq_bind,
    Option.bind_some, List.take_zero, List.nil_append, Nat.zero_add, size_shiftRight hsize,
    memcpyAt_eq hbytes, Option.bind_some, List.take_left,
    List.drop_length_add_append, List.drop_drop, List.length_append]

end Written

/-- A filter below 2^32 bytes is read back from the bytes that are written into a buffer of
`bloom_mem_size` or more, and finds the same strings; and a buffer that `build_bloom` accepts is
written again into every buffer that has room for it. -/
theorem bloom_serialize_roundtrip :
    (∀ bf, Made bf → bloomVersion.length + bf.size >>> 3 < 4294967296 →
      ∀ dst size, bloomMemSize (some bf) ≤ size → size ≤ dst.length →
        ∃ out bf', bloomSerializeInto (some bf) (some dst) size = some (0, some out) ∧
          buildBloom (out.take (bloomMemSize (some bf))) = some (some bf') ∧
          bf'.size = bf.size ∧ bf'.filter = bf.filter ∧
          ∀ str, bloomFind bf' str = bloomFind bf str) ∧
    ∀ (buf : Buffer) bf, buildBloom buf.bytes = some (some bf) →
      ∀ dst size, buf.bytes.length ≤ size → size ≤ dst.length →
        bloomSerializeInto (some bf) (some dst) size =
          some (0, some (buf.bytes ++ dst.drop buf.bytes.length)) := by
  constructor
  · intro bf hmade hlt dst size hroom hdst
    have hsize := hmade.size_eq
    rw [size_shiftRight hsize] at hlt
    have hmem := bloomMemSize_eq hsize hlt
    have hbuild : buildBloom (bloomSerialize bf) = some (some bf) := by
      rw [bloomSerialize_eq hsize]
      exact buildBloom_eq_some_iff.mpr ⟨rfl, by rw [u8_of_lt (by omega), hsize]⟩
    refine ⟨_, bf, bloomSerializeInto_eq hsize (hmem ▸ hroom) hdst, ?_, rfl, rfl, fun _ ↦ rfl⟩
    rw [hmem, List.take_left, hbuild]
  · intro buf bf hbuild dst size hroom hdst
    have hsize := (Made.build hbuild).size_eq
    have hbytes : bloomSerialize bf = buf.bytes := by
      rw [bloomSerialize_eq hsize, (buildBloom_eq_some_iff.mp hbuild).1]
    have hwritten := bloomSerializeInto_eq hsize (hbytes ▸ hroom) hdst
    rwa [hbytes] at hwritten

/-- The filter of a single item, and its dictionary. -/
theorem bloom_serialize_roundtrip_one :
    (∃ out bf', bloomSerializeInto (some (createBloom 1)) (some (List.replicate 13 7)) 13 =
        some (0, some out) ∧ buildBloom (out.take 13) = some (some bf') ∧
        bf'.size = 24 ∧ bf'.filter = [0, 0, 0] ∧
        ∀ str, bloomFind bf' str = bloomFind (createBloom 1) str) ∧
      bloomSerializeInto (some ⟨8, [5]⟩) (some (List.replicate 12 7)) 12 =
        some (0, some (bloomVersion ++ [5] ++ [7])) := by
  have hmem : bloomMemSize (some (createBloom 1)) = 13 := by with_unfolding_all decide
  have hone := bloom_serialize_roundtrip.1 (createBloom 1) (.create 1) (by decide)
    (List.replicate 13 7) 13 hmem.le (by decide)
  rw [hmem] at hone
  have hdict := bloom_serialize_roundtrip.2 ⟨bloomVersion ++ [5], by decide⟩ ⟨8, [5]⟩
    (by with_unfolding_all decide) (List.replicate 12 7) 12 (by decide) (by decide)
  exact ⟨hone, hdict⟩

end CPractice.Bloom
