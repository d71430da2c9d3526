import Disclosure.Proofs.Text.Line
import Disclosure.Text.Lossy

/-!
# Lines cut before decoding

A file is cut into lines while it is still bytes. In UTF-8 the two bytes of line ends stand for
themselves and are part of no other character, so cutting before decoding gives the lines of the
decoded text.
-/

namespace Disclosure.Text

theorem toList_loop (bytes : ByteArray) (i : Nat) (read : List UInt8) :
    ByteArray.toList.loop bytes i read = read.reverse ++ bytes.data.toList.drop i := by
  fun_induction ByteArray.toList.loop bytes i read with
  | case1 i read h ih =>
    have hi : i < bytes.data.toList.length := by simpa using h
    rw [ih, List.drop_eq_getElem_cons hi]
    simp [ByteArray.get!, h]
  | case2 i read h =>
    rw [List.drop_eq_nil_of_le (by simpa using Nat.le_of_not_lt h), List.append_nil]

theorem toList_bytes (bytes : ByteArray) : bytes.toList = bytes.data.toList := by
  rw [ByteArray.toList, toList_loop, List.reverse_nil, List.nil_append, List.drop_zero]

/-- The bytes of characters. -/
def encode (cs : List Char) : List UInt8 :=
  cs.flatMap String.utf8EncodeChar

theorem toList_toUTF8 (s : String) : s.toUTF8.toList = encode s.toList := by
  rw [String.toUTF8, ← String.utf8Encode_toList, List.utf8Encode, toList_bytes,
    List.toList_data_toByteArray, encode]

theorem fromUTF8?_toUTF8 (s : String) : String.fromUTF8? s.toUTF8 = some s :=
  dif_pos s.isValidUTF8

theorem toUTF8_of_fromUTF8? {bytes : ByteArray} {s : String}
    (h : String.fromUTF8? bytes = some s) : s.toUTF8 = bytes := by
  rw [String.fromUTF8?] at h
  split at h
  · cases h
    rfl
  · exact absurd h (by simp)

theorem fromUTF8?_encode (cs : List Char) :
    String.fromUTF8? ⟨(encode cs).toArray⟩ = some (String.ofList cs) := by
  have hbytes : (String.ofList cs).toUTF8 = ⟨(encode cs).toArray⟩ := by
    rw [String.toUTF8, String.toByteArray_ofList, List.utf8Encode]
    exact ByteArray.ext List.data_toByteArray
  rw [← hbytes, fromUTF8?_toUTF8]

theorem decode?_toUTF8 (s : String) : decode? s.toUTF8.toList = some s := by
  rw [decode?, toList_bytes]
  exact fromUTF8?_toUTF8 s

theorem bytes_of_decode? {bytes : List UInt8} {s : String} (h : decode? bytes = some s) :
    s.toUTF8.toList = bytes := by
  rw [toUTF8_of_fromUTF8? h, toList_bytes]

/-- Only bytes that are no text are shown with loss. -/
theorem lossy_of_decode? {bytes : List UInt8} {s : String} (h : decode? bytes = some s) :
    lossy bytes = s := by
  rw [lossy, h]

/-! ## Bytes of one character -/

/-- A byte below 128 stands for a character of its own. -/
theorem toNat_of_mem_utf8EncodeChar {c : Char} {b : UInt8} (hb : b ∈ String.utf8EncodeChar c)
    (hlow : b.toNat < 128) : c.toNat = b.toNat := by
  have hval := c.toNat_val
  rw [String.utf8EncodeChar] at hb
  split at hb
  · rw [List.mem_singleton] at hb
    rw [hb, UInt8.toNat_ofNat']
    omega
  · -- all bytes of a character that has more than one are 128 or above
    exfalso
    split at hb
    · rcases List.mem_pair.mp hb with rfl | rfl <;> rw [UInt8.toNat_ofNat'] at hlow <;> omega
    · split at hb <;> simp only [List.mem_cons, List.not_mem_nil, or_false] at hb
      · rcases hb with rfl | rfl | rfl <;> rw [UInt8.toNat_ofNat'] at hlow <;> omega
      · rcases hb with rfl | rfl | rfl | rfl <;> rw [UInt8.toNat_ofNat'] at hlow <;> omega

theorem feed_not_mem_utf8EncodeChar {c : Char} (hc : c ≠ '\n') :
    (10 : UInt8) ∉ String.utf8EncodeChar c := fun hb =>
  hc (Char.ext (UInt32.toNat_inj.mp (toNat_of_mem_utf8EncodeChar hb (by decide))))

theorem return_not_mem_utf8EncodeChar {c : Char} (hc : c ≠ '\r') :
    (13 : UInt8) ∉ String.utf8EncodeChar c := fun hb =>
  hc (Char.ext (UInt32.toNat_inj.mp (toNat_of_mem_utf8EncodeChar hb (by decide))))

/-! ## Lines -/

theorem pieces_cons {b : UInt8} {bytes : List UInt8} (hfeed : b ≠ 10)
    (hreturn : ∀ rest, b = 13 → bytes ≠ 10 :: rest) :
    byteLines.pieces (b :: bytes) = byteLines.consByte b (byteLines.pieces bytes) := by
  rw [byteLines.pieces]
  · exact hfeed
  · exact hreturn

/-- Bytes that end no line go in front of the line they stand in. -/
theorem pieces_append {front : List UInt8} (hfeed : 10 ∉ front) (hreturn : 13 ∉ front)
    (bytes : List UInt8) :
    byteLines.pieces (front ++ bytes) =
      front.foldr byteLines.consByte (byteLines.pieces bytes) := by
  induction front with
  | nil => rfl
  | cons b front ih =>
    rw [List.mem_cons, not_or] at hfeed hreturn
    rw [List.cons_append, pieces_cons (Ne.symm hfeed.1) fun _ hb => absurd hb.symm hreturn.1,
      ih hfeed.2 hreturn.2]
    rfl

theorem foldr_consByte_cons (bytes line : List UInt8) (more : List (List UInt8)) :
    bytes.foldr byteLines.consByte (line :: more) = (bytes ++ line) :: more := by
  induction bytes with
  | nil => rfl
  | cons b bytes ih => rw [List.foldr_cons, ih]; rfl

/-- The bytes of a character go where the character goes. -/
theorem foldr_consByte_encode (c : Char) (ls : List (List Char)) :
    (String.utf8EncodeChar c).foldr byteLines.consByte (ls.map encode) =
      (consLine c ls).map encode := by
  cases ls with
  | nil =>
    obtain ⟨init, last, hbytes⟩ := (List.eq_nil_or_concat' (String.utf8EncodeChar c)).resolve_left
      String.utf8EncodeChar_ne_nil
    have hlast : byteLines.consByte last [] = [[last]] := rfl
    rw [List.map_nil, hbytes, List.foldr_append, List.foldr_cons, List.foldr_nil, hlast,
      foldr_consByte_cons]
    simp [consLine, encode, hbytes]
  | cons line more =>
    rw [List.map_cons, foldr_consByte_cons]
    rfl

/-- Bytes that start with a line feed are those of characters that do. -/
theorem exists_of_encode_eq_feed {cs : List Char} {bytes : List UInt8}
    (h : encode cs = 10 :: bytes) : ∃ rest, cs = '\n' :: rest := by
  cases cs with
  | nil => exact absurd h (by simp [encode])
  | cons c cs =>
    refine ⟨cs, ?_⟩
    by_contra hc
    obtain ⟨b, more, hbytes⟩ := List.exists_cons_of_ne_nil (String.utf8EncodeChar_ne_nil (c := c))
    rw [encode, List.flatMap_cons, hbytes, List.cons_append, List.cons.injEq] at h
    exact feed_not_mem_utf8EncodeChar (fun heq => hc (congrArg (· :: cs) heq))
      (hbytes ▸ h.1 ▸ List.mem_cons_self)

/-- The lines of the bytes are the bytes of the lines. -/
theorem pieces_encode (cs : List Char) :
    byteLines.pieces (encode cs) = (linesOf cs).map encode := by
  fun_induction linesOf cs with
  | case1 => rfl
  | case2 rest ih =>
    have hbytes : encode ('\n' :: rest) = 10 :: encode rest := rfl
    rw [hbytes, byteLines.pieces, ih]
    rfl
  | case3 rest ih =>
    have hbytes : encode ('\r' :: '\n' :: rest) = 13 :: 10 :: encode rest := rfl
    rw [hbytes, byteLines.pieces, ih]
    rfl
  | case4 c rest hfeed hreturn ih =>
    rw [← foldr_consByte_encode, ← ih]
    by_cases hc : c = '\r'
    · subst hc
      refine pieces_cons (by decide) fun more _ hmore => ?_
      obtain ⟨after, hafter⟩ := exists_of_encode_eq_feed hmore
      exact hreturn after rfl hafter
    · rw [encode, List.flatMap_cons]
      exact pieces_append (feed_not_mem_utf8EncodeChar hfeed) (return_not_mem_utf8EncodeChar hc) _

/-- **Cutting a file into lines and decoding them gives the lines of its text.** -/
theorem byteLines_toUTF8 (s : String) : byteLines s.toUTF8 = (lines s).map some := by
  rw [byteLines, toList_toUTF8, pieces_encode, lines, List.map_map, List.map_map]
  exact List.map_congr_left fun line _ => fromUTF8?_encode line

theorem feed_not_mem_consByte {b : UInt8} (hb : b ≠ 10) {ls : List (List UInt8)}
    (h : ∀ line ∈ ls, 10 ∉ line) : ∀ line ∈ byteLines.consByte b ls, 10 ∉ line := by
  cases ls with
  | nil => simpa [byteLines.consByte] using Ne.symm hb
  | cons first rest =>
    rw [List.forall_mem_cons] at h
    simpa [byteLines.consByte, h.1, Ne.symm hb] using h.2

theorem feed_not_mem_pieces (bytes : List UInt8) :
    ∀ piece ∈ byteLines.pieces bytes, 10 ∉ piece := by
  fun_induction byteLines.pieces bytes with
  | case1 => simp
  | case2 rest ih => simpa using ih
  | case3 rest ih => simpa using ih
  | case4 b rest hfeed _ ih => exact feed_not_mem_consByte hfeed ih

/-- No line of a file has a line feed in it, whatever its bytes are. -/
theorem feed_not_mem_of_mem_byteLines {bytes : ByteArray} {line : String}
    (h : some line ∈ byteLines bytes) : '\n' ∉ line.toList := by
  obtain ⟨piece, hpiece, hline⟩ := List.mem_map.mp h
  intro hfeed
  refine feed_not_mem_pieces _ piece hpiece ?_
  have hbytes : encode line.toList = piece := by
    rw [← toList_toUTF8, toUTF8_of_fromUTF8? hline, toList_bytes]
  rw [← hbytes]
  exact List.mem_flatMap.mpr ⟨'\n', hfeed, by decide⟩

end Disclosure.Text
