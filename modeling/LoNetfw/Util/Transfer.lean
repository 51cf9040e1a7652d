import LoNetfw.Util.FileIo
import LoNetfw.Util.Stream
import LoNetfw.Util.WireFormat

namespace LoNetfw.Util

open Basis

/-!
# Typed values between two buffers

What typed writers have stored in one `ByteArray` is carried to another one, over a connection or in
a file, and read there with the matching readers.  The two buffers may have nodes of different sizes
and belong to hosts of different byte orders.

* `writeItems_host` — the bytes of a value do not depend on the byte order of the host;
* `received_items` — storing the bytes of the items in one `write` and going back is enough;
* `sent_items_received` — over `writeF` and `readF`, whatever the counts of the calls;
* `saved_items_loaded` — over `writeToFile` and `readFromFile`.
-/

namespace ByteArray

variable {a b : ByteArray}

/-! ### The byte order of the host -/

/-- One byte has no byte order. -/
theorem writeRaw_one_host (host host' : Endian) (fill : ℕ → ℕ → UInt8) (x : BitVec (8 * 1)) :
    writeRaw host fill 1 x = writeRaw host' fill 1 x := by
  cases host <;> cases host' <;> rfl

/-- What a fixed-width writer stores does not depend on the host. -/
theorem writeFixed_host (host host' : Endian) (fill : ℕ → ℕ → UInt8) {n : ℕ} (x : BitVec (8 * n)) :
    writeFixed host fill n x = writeFixed host' fill n x := by
  funext b
  rw [writeFixed_eq, writeFixed_eq]

/-- What a typed writer stores depends on the byte order of the buffer only. -/
theorem writeValue_host (host host' : Endian) (u : Unspecified) (k : Kind) (v : k.Carrier) :
    writeValue host u k v = writeValue host' u k v := by
  cases k
  case fInt8 | fUInt8 => exact writeRaw_one_host host host' u.fill _
  case fInt16 | fUInt16 | fInt32 | fUInt32 | fInt64 | fUInt64 | float | double =>
    exact writeFixed_host host host' u.fill _
  case stringFInt16 | stringFInt32 | stringFInt64 =>
    apply congrArg (· >>= fun _ : Unit => write u.fill v)
    exact writeFixed_host host host' u.fill _
  case int32 | uint32 | int64 | uint64 | stringVInt => rfl

/-- What a sequence of writers stores does not depend on the host. -/
theorem writeItems_host (host host' : Endian) (items : List (Unspecified × Item)) :
    writeItems host items = writeItems host' items := by
  induction items with
  | nil => rfl
  | cons it items ih =>
    obtain ⟨u, item⟩ := it
    rw [writeItems, writeItems, writeValue_host host host', ih]

/-! ### Storing what was written elsewhere -/

/-- The items that the bytes `bs` encode: from a buffer that holds `bs` the readers take them. -/
def Encoded (host : Endian) (items : List Item) (bs : List UInt8) : Prop :=
  ∀ c : ByteArray, c.Inv → c.Holds bs →
    ∃ c', readItems host (items.map fun it => (it.isLittle, it.kind)) c = .ok items c' ∧
      Consumed c c' bs.length

/-- Writing items stores bytes that any host reads as the items. -/
theorem writeItems_encoded (h : a.Inv) (host host' : Endian) (items : List (Unspecified × Item))
    (hitems : ∀ it ∈ items,
      wireKind it.2.kind = true ∧ it.2.kind.stringLength it.2.value < 2 ^ 24) :
    ∃ a' bs, writeItems host items a = .ok () a' ∧ Wrote a a' bs ∧
      Encoded host' (items.map Prod.snd) bs := by
  rw [writeItems_host host host']
  obtain ⟨a', bs, hwrite, hwrote, hread⟩ := writeItems_encodes host' items hitems h
  refine ⟨a', bs, hwrite, hwrote, fun c hc hold => ?_⟩
  obtain ⟨c', hread, hcons⟩ := hread c hc hold
  refine ⟨c', ?_, hcons⟩
  rw [List.map_map]
  exact hread

/-- A buffer that holds the bytes at a position gives the items when it goes back there. -/
theorem Encoded.read_back {host : Endian} {items : List Item} {bs : List UInt8} {pos : ℕ}
    (hbs : Encoded host items bs) (h : b.Inv) (hfit : pos + bs.length ≤ b.dataSize)
    (hslice : slice b.mem pos bs.length = bs) :
    ∃ c c', setPosition pos b = .ok () c ∧
      readItems host (items.map fun it => (it.isLittle, it.kind)) c = .ok items c' ∧
      c'.position = pos + bs.length := by
  have hdata := h.dataSize_le
  obtain ⟨c, hset, hinv, hmem, -, -, hdata', hpos, -⟩ := setPosition_spec h pos (by omega)
  have hold : c.Holds bs := by
    refine ⟨?_, ?_⟩
    · rw [hpos, hdata']
      omega
    · rw [hpos, hmem]
      exact hslice
  obtain ⟨c', hread, hcons⟩ := hbs c hinv hold
  exact ⟨c, c', hset, hread, by rw [hcons.position, hpos]⟩

/-- **Received items.**  What one `write` has stored is read from where it began. -/
theorem received_items {host : Endian} {items : List Item} {bs : List UInt8}
    (hbs : Encoded host items bs) (h : b.Inv) (fill : ℕ → ℕ → UInt8) (hlen : bs.length < 2 ^ 24) :
    ∃ b' c c', write fill bs b = .ok () b' ∧ setPosition b.position b' = .ok () c ∧
      readItems host (items.map fun it => (it.isLittle, it.kind)) c = .ok items c' ∧
      c'.position = b'.position := by
  obtain ⟨b', hwrite, hwrote⟩ := wrote_of_write h fill hlen
  have hfit : b.position + bs.length ≤ b'.dataSize := by
    rw [hwrote.dataSize]
    exact Nat.le_max_right _ _
  obtain ⟨c, c', hset, hread, hpos⟩ := hbs.read_back hwrote.inv hfit hwrote.slice_eq
  exact ⟨b', c, c', hwrite, hset, hread, by rw [hpos, hwrote.position]⟩

/-! ### Over a connection -/

/-- `readF` of all bytes is one `write` of them, also of none. -/
theorem readF_write (h : b.Inv) (fill : ℕ → ℕ → UInt8) (chunks : List (List UInt8))
    (hne : ∀ c ∈ chunks, c ≠ []) (hlt : chunks.flatten.length < 2 ^ 24) :
    ∃ b', write fill chunks.flatten b = .ok () b' ∧
      Stream.readF fill (chunks.map .stored) chunks.flatten.length b =
        .ok (some (chunks.flatten.length : ℤ)) b' := by
  cases chunks with
  | nil => exact ⟨b, rfl, rfl⟩
  | cons c chunks =>
    have hpos : 0 < c.length := List.length_pos_iff.mpr (hne c List.mem_cons_self)
    apply Stream.readF_stores h fill ?_ hlt _ hne rfl
    rw [List.flatten_cons, List.length_append]
    omega

/-- **Items over a connection.** From any two reachable buffers, on hosts of any byte orders and with
    nodes of at least one byte: items of the wire kinds, with strings below `2 ^ 24` bytes, are
    written into the one, its cursor is set back, and `writeF` sends the bytes, in whatever counts the
    socket takes them; when they are fewer than `2 ^ 24`, `readF` receives them into the other, in
    whatever pieces they arrive, its cursor is set back, and the readers return the items. -/
theorem sent_items_received (host host' : Endian) (ns ns' : ℕ) (hns : 1 ≤ ns) (hns' : 1 ≤ ns')
    (ha : Reachable host ns a) (hb : Reachable host' ns' b) (fill : ℕ → ℕ → UInt8)
    (items : List (Unspecified × Item))
    (hitems : ∀ it ∈ items,
      wireKind it.2.kind = true ∧ it.2.kind.stringLength it.2.value < 2 ^ 24) :
    ∃ a₁ a₂ len bs, writeItems host items a = .ok () a₁ ∧ a₁.position = a.position + len ∧
      setPosition a.position a₁ = .ok () a₂ ∧ bs.length = len ∧
      (∀ (wire : List UInt8) (counts : List ℕ), (∀ n ∈ counts, 0 < n) → counts.sum = len →
        ∃ a₃, Stream.writeF (counts.map fun n : ℕ => (n : ℤ)) len wire a₂ =
          .ok (some (len : ℤ), wire ++ bs) a₃ ∧ a₃.position = a₁.position) ∧
      (len < 2 ^ 24 → ∀ chunks : List (List UInt8), (∀ c ∈ chunks, c ≠ []) → chunks.flatten = bs →
        ∃ b₁ b₂ b₃, Stream.readF fill (chunks.map .stored) len b = .ok (some (len : ℤ)) b₁ ∧
          setPosition b.position b₁ = .ok () b₂ ∧
          readItems host' (items.map fun it => (it.2.isLittle, it.2.kind)) b₂ =
            .ok (items.map Prod.snd) b₃ ∧
          b₃.position = b₁.position) := by
  obtain ⟨hinv, -⟩ := ha.inv hns
  obtain ⟨hinv', -⟩ := hb.inv hns'
  -- the items are one run of bytes, whatever nodes hold them
  obtain ⟨a₁, bs, hwrite, hwrote, hencoded⟩ := writeItems_encoded hinv host host' items hitems
  obtain ⟨a₂, hset, hinv₂, ⟨hfit, hslice⟩, hpos, -⟩ := hwrote.rewind
  refine ⟨a₁, a₂, bs.length, bs, hwrite, hwrote.position, hset, rfl, ?_, ?_⟩
  · intro wire counts hcounts hsum
    have hread : bs.length ≤ a₂.getReadSize := by
      rw [hinv₂.getReadSize_eq]
      omega
    obtain ⟨a₃, hsent, hadvanced⟩ := Stream.writeF_sends hinv₂ hread counts hcounts hsum wire
    rw [hslice] at hsent
    exact ⟨a₃, hsent, by rw [hadvanced.position, hpos, hwrote.position]⟩
  · rintro hlen chunks hchunks rfl
    obtain ⟨b₁, hstored, hreceived⟩ := readF_write hinv' fill chunks hchunks hlen
    -- on the other side one write would have left the same bytes to read
    obtain ⟨b₁', b₂, b₃, hstored', hset', hread, hpos'⟩ := received_items hencoded hinv' fill hlen
    obtain rfl : b₁ = b₁' := by
      rw [hstored] at hstored'
      exact (EStateM.Result.ok.inj hstored').2
    rw [List.map_map] at hread
    exact ⟨b₁, b₂, b₃, hreceived, hset', hread, hpos'⟩

/-- A string and a number in different byte orders. -/
def twoItems : List (Unspecified × Item) :=
  [(default, ⟨true, .stringFInt32, [72, 105]⟩), (default, ⟨false, .fUInt16, 0x1234⟩)]

/-- They go from nodes of two bytes to nodes of five, byte by byte and in two pieces. -/
theorem sent_items_received_two :
    ∃ a₁ a₂ a₃ bs b₁ b₂ b₃, writeItems .little twoItems (new 2 fun _ => 0) = .ok () a₁ ∧
      setPosition 0 a₁ = .ok () a₂ ∧
      Stream.writeF (.replicate 8 1) 8 [] a₂ = .ok (some 8, bs) a₃ ∧
      Stream.readF (fun _ _ => 0) [.stored (bs.take 3), .stored (bs.drop 3)] 8 (new 5 fun _ => 0) =
        .ok (some 8) b₁ ∧
      setPosition 0 b₁ = .ok () b₂ ∧
      readItems .big [(true, .stringFInt32), (false, .fUInt16)] b₂ =
        .ok [⟨true, .stringFInt32, [72, 105]⟩, ⟨false, .fUInt16, 0x1234⟩] b₃ := by
  have hnew : Reachable .little 2 (new 2 fun _ => 0) := .new _
  obtain ⟨a₁, a₂, len, bs, hwrite, hpos, hset, hlen, hsend, hreceive⟩ := sent_items_received .little
    .big 2 5 (by decide) (by decide) hnew (.new fun _ => 0 : Reachable .big 5 _) (fun _ _ => 0) twoItems
    (by decide)
  obtain rfl : len = 8 := by
    have hend : (outcome (writeItems .little twoItems) (new 2 fun _ => 0)).2.position = 8 := by
      decide +kernel
    rw [outcome, hwrite, hpos] at hend
    exact (Nat.zero_add _).symm.trans hend
  obtain ⟨a₃, hsent, -⟩ := hsend [] (.replicate 8 1) (by decide) rfl
  have hpieces : ∀ c ∈ [bs.take 3, bs.drop 3], c ≠ [] := by
    intro c hc hnil
    have := congrArg List.length hnil
    rcases List.mem_pair.mp hc with rfl | rfl <;> simp [hlen] at this
  obtain ⟨b₁, b₂, b₃, hreceived, hset', hread, -⟩ := hreceive (by decide) [bs.take 3, bs.drop 3]
    hpieces (by simp)
  exact ⟨a₁, a₂, a₃, bs, b₁, b₂, b₃, hwrite, hset, hsent, hreceived, hset', hread⟩

/-! ### In a file -/

/-- A slice that lies in the data is one of the data. -/
theorem slice_data {m : List UInt8} {d p n : ℕ} (h : p + n ≤ d) :
    slice (slice m 0 d) p n = slice m p n := by
  rw [slice, slice, slice, List.drop_zero, List.drop_take, List.take_take,
    Nat.min_eq_left (by omega)]

/-- The first bytes of those that were stored stand where the cursor was. -/
theorem Extended.slice_prefix {bs rest : List UInt8} {b' : ByteArray} (h : b.Inv)
    (hb' : Extended b (bs ++ rest) b') :
    b.position + bs.length ≤ b'.dataSize ∧ slice b'.mem b.position bs.length = bs := by
  have hlen : (bs ++ rest).length = bs.length + rest.length := List.length_append
  have hend := hb'.dataSize
  have hle : b.position ≤ (slice b.mem 0 b.dataSize).length := by
    rw [length_slice (by rw [h.length_mem, Nat.zero_add]; exact h.dataSize_le)]
    exact h.position_le
  have hfit : b.position + (bs ++ rest).length ≤ b'.dataSize := by omega
  refine ⟨by omega, ?_⟩
  -- the data holds all bytes there, so their first ones too
  have hall : slice (overlay (slice b.mem 0 b.dataSize) b.position (bs ++ rest)) b.position
      (bs ++ rest).length = bs ++ rest := slice_overlay hle
  rw [← hb'.data, slice_data hfit] at hall
  have hfirst := congrArg (List.take bs.length) hall
  rwa [slice, List.take_take, List.take_left, Nat.min_eq_left (by omega)] at hfirst

/-- What is unread starts with what the buffer holds at the cursor. -/
theorem Holds.unread {bs : List UInt8} (hold : b.Holds bs) :
    ∃ rest, slice b.mem b.position (b.dataSize - b.position) = bs ++ rest := by
  obtain ⟨hfit, hslice⟩ := hold
  refine ⟨slice b.mem (b.position + bs.length) (b.dataSize - b.position - bs.length), ?_⟩
  have hjoin := slice_append b.mem b.position bs.length (b.dataSize - b.position - bs.length)
  rw [hslice] at hjoin
  rw [hjoin]
  congr 1
  omega

/-- Writers keep the buffer well formed. -/
theorem writeItems_keeps (host : Endian) (items : List (Unspecified × Item)) :
    Keeps (writeItems host items) := by
  induction items with
  | nil => exact (Safe.pure _).keeps
  | cons it items ih =>
    have hset : Safe (modify (setLittleEndian it.2.isLittle)) :=
      fun b hb => ⟨setLittleEndian_inv hb _, rfl, fun _ => by simp [outcome, modify_run]⟩
    exact hset.keeps.bind fun _ => (writeValue_keeps host it.1 _ _).bind fun _ => ih

/-- From a cursor at the start of a node, or before as many bytes as a node holds, the file gets the
    unread bytes. -/
theorem writeToFile_unread (h : b.Inv) (path : String)
    (hregime : b.position % b.nodeSize = 0 ∨ b.nodeSize ≤ b.dataSize - b.position) :
    writeToFile true path b = .ok (true, slice b.mem b.position (b.dataSize - b.position)) b := by
  have hdata := h.dataSize_le
  have hloop : writeToFileLoop b.nodes b.nodeSize (b.nodes.length + 1) b.cur b.position
      (b.dataSize - b.position) = .ok (slice b.mem b.position (b.dataSize - b.position)) := by
    -- nothing to write, or a loop that never leaves the data
    rcases Nat.eq_zero_or_pos (b.dataSize - b.position) with hnone | hpos
    · rw [hnone, slice_zero]
      rfl
    · have hlt : b.position < b.totalSize := by omega
      have hrun := writeToFileLoop_eq h.blocks h.nodeSize_pos (b.nodes.length + 1)
        (b.position / b.nodeSize) (b.position % b.nodeSize) (b.dataSize - b.position)
        (Nat.mod_lt _ h.nodeSize_pos) (h.div_lt hlt) hpos hregime
        (by rw [Inv.position_split, ← h.total]; omega) (Nat.le_add_right_of_le (Nat.le_succ _))
      rwa [Inv.position_split, ← h.cur_of_lt hlt] at hrun
  have hfile : writeToFile true path b = (liftExcept (writeToFileLoop b.nodes b.nodeSize
      (b.nodes.length + 1) b.cur b.position b.getReadSize) >>= fun file => pure (true, file)) b := rfl
  rw [hfile, h.getReadSize_eq, hloop]
  rfl

/-- **Items in a file.** Items of the wire kinds, with strings below `2 ^ 24` bytes, are written into a
    reachable buffer, at the start of a node or as many bytes as a node holds, and saved; another
    reachable buffer loads the file at its cursor, and the readers return the items from there. -/
theorem saved_items_loaded (host host' : Endian) (ns ns' : ℕ) (hns : 1 ≤ ns) (hns' : 1 ≤ ns')
    (ha : Reachable host ns a) (hb : Reachable host' ns' b) (fills : ℕ → ℕ → ℕ → UInt8)
    (path : String) (items : List (Unspecified × Item))
    (hitems : ∀ it ∈ items,
      wireKind it.2.kind = true ∧ it.2.kind.stringLength it.2.value < 2 ^ 24) :
    ∃ a₁ a₂, writeItems host items a = .ok () a₁ ∧ setPosition a.position a₁ = .ok () a₂ ∧
      (a.position % ns = 0 ∨ a.position + ns ≤ a₁.position →
        ∃ file b₁ b₂ b₃, writeToFile true path a₂ = .ok (true, file) a₂ ∧
          readFromFile fills (some file) path b = .ok true b₁ ∧
          setPosition b.position b₁ = .ok () b₂ ∧
          readItems host' (items.map fun it => (it.2.isLittle, it.2.kind)) b₂ =
            .ok (items.map Prod.snd) b₃) := by
  obtain ⟨hinv, rfl⟩ := ha.inv hns
  obtain ⟨hinv', -⟩ := hb.inv hns'
  obtain ⟨a₁, bs, hwrite, hwrote, hencoded⟩ := writeItems_encoded hinv host host' items hitems
  obtain ⟨a₂, hset, hinv₂, hold, hpos, -⟩ := hwrote.rewind
  refine ⟨a₁, a₂, hwrite, hset, fun hregime => ?_⟩
  have hnode : a₂.nodeSize = a.nodeSize := by
    have hkeep := (writeItems_keeps host items a hinv (by simp [outcome, hwrite])).2
    obtain ⟨a₂', hset', -, -, hnode, -⟩ := setPosition_spec hwrote.inv a.position (by
      have := hwrote.inv.position_le.trans hwrote.inv.dataSize_le
      have := hwrote.position
      omega)
    rw [hset] at hset'
    rw [outcome, hwrite] at hkeep
    rw [(EStateM.Result.ok.inj hset').2, hnode]
    exact hkeep
  -- the file starts with the bytes of the items
  obtain ⟨rest, hrest⟩ := hold.unread
  have hfile := writeToFile_unread hinv₂ path (by
    have hfit := hold.1
    have hend := hwrote.position
    rw [hnode, hpos]
    exact hregime.imp_right fun hle => by omega)
  rw [hrest] at hfile
  obtain ⟨b₁, hload, hextended⟩ := readFromFile_extends hinv' fills (bs ++ rest) path
  obtain ⟨hfit', hslice'⟩ := hextended.slice_prefix hinv'
  obtain ⟨b₂, b₃, hset', hread, -⟩ := hencoded.read_back hextended.inv hfit' hslice'
  rw [List.map_map] at hread
  exact ⟨_, b₁, b₂, b₃, hfile, hload, hset', hread⟩

/-- A string and an integer from nodes of two bytes into nodes of five. -/
theorem saved_items_loaded_two :
    ∃ a₁ a₂ file b₁ b₂ b₃, writeItems .little twoItems (new 2 fun _ => 0) = .ok () a₁ ∧
      setPosition 0 a₁ = .ok () a₂ ∧ writeToFile true "out" a₂ = .ok (true, file) a₂ ∧
      readFromFile (fun _ _ _ => 0) (some file) "out" (new 5 fun _ => 0) = .ok true b₁ ∧
      setPosition 0 b₁ = .ok () b₂ ∧
      readItems .big [(true, .stringFInt32), (false, .fUInt16)] b₂ =
        .ok [⟨true, .stringFInt32, [72, 105]⟩, ⟨false, .fUInt16, 0x1234⟩] b₃ := by
  have hnew : Reachable .little 2 (new 2 fun _ => 0) := .new _
  obtain ⟨a₁, a₂, hwrite, hset, hload⟩ := saved_items_loaded .little .big 2 5 (by decide) (by decide)
    hnew (.new fun _ => 0 : Reachable .big 5 _) (fun _ _ _ => 0) "out" twoItems (by decide)
  obtain ⟨file, b₁, b₂, b₃, hfile, hrest⟩ := hload (.inl rfl)
  exact ⟨a₁, a₂, file, b₁, b₂, b₃, hwrite, hset, hfile, hrest⟩

end ByteArray

end LoNetfw.Util
