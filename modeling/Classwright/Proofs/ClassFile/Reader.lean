import Classwright.ClassFile.Decode
import Classwright.Proofs.Bytes
import Classwright.Proofs.ModifiedUtf8
import Classwright.Proofs.Outcome
import Classwright.Proofs.Pool

/-!
Reading what was written, part by part. `Read.Reads m t x` says that a reader takes exactly the bytes
`t` and gives `x`, whatever follows; readers in sequence read texts one after the other
(`Read.Reads.bind`). The constant pool is read back entry by entry (`Read.reads_pool`).
-/

namespace Classwright.Read

/-- A reader takes exactly some bytes, wherever they stand, and gives a value. -/
def Reads (m : Read α) (t : Text) (x : α) : Prop :=
  ∀ offset rest, m ⟨offset, t ++ rest⟩ = .ok (x, ⟨offset + t.length, rest⟩)

namespace Reads

variable {m : Read α} {f : α → Read β} {t u : Text} {x : α} {y : β}

protected theorem pure (x : α) : Reads (pure x) [] x := fun _ _ => rfl

theorem bind (h : Reads m t x) (h' : Reads (f x) u y) : Reads (m >>= f) (t ++ u) y := by
  intro offset rest
  change (m ⟨offset, t ++ u ++ rest⟩ >>= fun (p : α × Reader) => f p.1 p.2) = _
  rw [List.append_assoc, h offset (u ++ rest)]
  change f x ⟨offset + t.length, u ++ rest⟩ = _
  rw [h' (offset + t.length) rest, List.length_append, Nat.add_assoc]

/-- The last reader of a sequence. -/
theorem last (h : Reads m t x) (h' : Reads (f x) [] y) : Reads (m >>= f) t y := by
  have := h.bind h'
  rwa [List.append_nil] at this

/-- A reader may look at where it stands. -/
theorem get {f : Reader → Read β} (h : ∀ r, Reads (f r) u y) : Reads (get >>= f) u y :=
  fun offset rest => h ⟨offset, u ++ rest⟩ offset rest

end Reads

/-! ### Bytes and numbers -/

theorem reads_bytesOr (short : DecodeError) (h : t.length = n) :
    Reads (bytesOr short n) t t := by
  intro offset rest
  subst h
  rw [bytesOr, Text.split?_nil_append]

theorem reads_bytes (h : t.length = n) : Reads (bytes n) t t :=
  reads_bytesOr _ h

theorem reads_skip (h : t.length = n) : Reads (skip n) t () :=
  (reads_bytes h).last (.pure ())

theorem reads_digits (h : t.length = n) :
    Reads (number n) t (Text.ofBigEndian t) :=
  (reads_bytes h).last (.pure _)

theorem reads_numberOr (short : DecodeError) (width : Nat) (h : n < 256 ^ width) :
    Reads (numberOr short width) (Text.bigEndian width n) n := by
  refine (reads_bytesOr short (Text.length_bigEndian width n)).last ?_
  rw [Text.ofBigEndian_bigEndian_of_lt h]
  exact .pure n

theorem reads_number (width : Nat) (h : n < 256 ^ width) :
    Reads (number width) (Text.bigEndian width n) n := reads_numberOr _ width h

theorem reads_wordOr (short : DecodeError) {n : Nat} (h : n < 65536) :
    Reads (numberOr short 2) (Text.word n) n := by
  refine (reads_bytesOr short (Text.length_word n)).last ?_
  rw [Text.ofBigEndian_word_natCast h]
  exact .pure n

theorem reads_word {n : Nat} (h : n < 65536) : Reads (number 2) (Text.word n) n := reads_wordOr _ h

/-- As many items as there are texts. -/
theorem reads_many
    (h : List.Forall₂ (Reads item) ts xs) :
    Reads (many item done xs.length) ts.flatten (done.toList ++ xs).toArray := by
  induction h generalizing done with
  | nil =>
    rw [List.append_nil]
    exact .pure done
  | @cons t x ts xs hx _ ih =>
    refine hx.bind ?_
    have := @ih (done.push x)
    rwa [Array.toList_push, List.append_assoc] at this

/-! ### The pool -/

theorem length_encode_utf8 (h : (PoolEntry.utf8 s).encode = .ok t) :
    (Modified.encode s).length < 65536 ∧
      t = 1 :: (Text.word (Modified.encode s).length ++ Modified.encode s) := by
  simp only [PoolEntry.encode, PoolEntry.encodeBody] at h
  split at h
  · cases h
  · cases h
    exact ⟨by omega, rfl⟩

/-- An entry is read back if its text is valid and its references fit their sixteen bits. -/
theorem reads_entry (index : Nat) (h : e.encode = .ok t)
    (hne : e ≠ .filler) (hvalid : ∀ s, e = .utf8 s → Utf8.isValid s = true)
    (hrefs : ∀ r ∈ e.refs, r < 65536) : Reads (entry index) t e := by
  have htag (n : Nat) (hn : n < 256) :
      Reads (numberOr (.badTag 0 index) 1) [UInt8.ofNat n] n := by
    have := reads_numberOr (.badTag 0 index) 1 (n := n) (by omega)
    simpa [Text.bigEndian] using this
  cases e with
  | filler => exact absurd rfl hne
  | utf8 s =>
    obtain ⟨hlt, rfl⟩ := length_encode_utf8 h
    refine (htag 1 (by decide)).bind ?_
    refine (reads_wordOr .poolEnded hlt).bind ?_
    refine (reads_bytesOr .poolEnded rfl).last ?_
    rw [Modified.decode_encode (hvalid s rfl)]
    exact .pure _
  | int v =>
    cases h
    refine (htag 3 (by decide)).bind ?_
    refine (reads_numberOr .poolEnded 4 v.toUInt32.toNat_lt).last ?_
    rw [UInt32.ofNat_toNat, Int32.toInt32_toUInt32]
    exact .pure _
  | float v =>
    cases h
    refine (htag 4 (by decide)).bind ?_
    refine (reads_numberOr .poolEnded 4 v.bits.toNat_lt).last ?_
    rw [UInt32.ofNat_toNat]
    exact .pure _
  | long v =>
    cases h
    refine (htag 5 (by decide)).bind ?_
    refine (reads_numberOr .poolEnded 8 v.toUInt64.toNat_lt).last ?_
    rw [UInt64.ofNat_toNat, Int64.toInt64_toUInt64]
    exact .pure _
  | double v =>
    cases h
    refine (htag 6 (by decide)).bind ?_
    refine (reads_numberOr .poolEnded 8 v.bits.toNat_lt).last ?_
    rw [UInt64.ofNat_toNat]
    exact .pure _
  | cls a =>
    cases h
    exact (htag 7 (by decide)).bind ((reads_wordOr _ (hrefs a (.head _))).last (.pure _))
  | string a =>
    cases h
    exact (htag 8 (by decide)).bind ((reads_wordOr _ (hrefs a (.head _))).last (.pure _))
  | field a b =>
    cases h
    exact (htag 9 (by decide)).bind ((reads_wordOr _ (hrefs a (.head _))).bind
      ((reads_wordOr _ (hrefs b (.tail _ (.head _)))).last (.pure _)))
  | method a b =>
    cases h
    exact (htag 10 (by decide)).bind ((reads_wordOr _ (hrefs a (.head _))).bind
      ((reads_wordOr _ (hrefs b (.tail _ (.head _)))).last (.pure _)))
  | interfaceMethod a b =>
    cases h
    exact (htag 11 (by decide)).bind ((reads_wordOr _ (hrefs a (.head _))).bind
      ((reads_wordOr _ (hrefs b (.tail _ (.head _)))).last (.pure _)))
  | nameAndType a b =>
    cases h
    exact (htag 12 (by decide)).bind ((reads_wordOr _ (hrefs a (.head _))).bind
      ((reads_wordOr _ (hrefs b (.tail _ (.head _)))).last (.pure _)))

/-- What keeps an index free has no bytes. -/
theorem forall₂_encode_filler {es : List PoolEntry}
    (h : List.Forall₂ (fun e t => e.encode = .ok t) (List.replicate n .filler ++ es) ts) :
    ∃ us, List.Forall₂ (fun e t => e.encode = .ok t) es us ∧ us.flatten = ts.flatten := by
  induction n generalizing ts with
  | zero => exact ⟨ts, h, rfl⟩
  | succ n ih =>
    rw [List.replicate_succ, List.cons_append] at h
    obtain ⟨t, us, ht, hus, rfl⟩ := List.forall₂_cons_left_iff.1 h
    cases ht
    obtain ⟨vs, hvs, hflat⟩ := ih hus
    exact ⟨vs, hvs, hflat⟩

/-- The entries of a pool are read after those already there. -/
theorem reads_entries (hlaid : Pool.Laid es) {ts : List Text}
    (h : List.Forall₂ (fun e t => e.encode = .ok t) es ts)
    (hvalid : ∀ s, .utf8 s ∈ es → Utf8.isValid s = true)
    (hrefs : ∀ e ∈ es, ∀ r ∈ e.refs, r < 65536) (p : Pool) (hfuel : es.length ≤ fuel) :
    ∃ q, Reads (entries (p.size + es.length) p fuel) ts.flatten q ∧
      q.entries.toList = p.entries.toList ++ es := by
  induction hlaid generalizing ts p fuel with
  | nil =>
    cases h
    refine ⟨p, ?_, (List.append_nil _).symm⟩
    cases fuel with
    | zero => exact .pure p
    | succ fuel =>
      rw [entries, List.length_nil, Nat.add_zero, if_pos (Nat.le_refl _)]
      exact .pure p
  | @cons e es hne hlaid ih =>
    obtain ⟨t, ts, ht, hts, rfl⟩ := List.forall₂_cons_left_iff.1 h
    obtain ⟨us, hus, hflat⟩ := forall₂_encode_filler hts
    have hlen : (Pool.block e ++ es).length = e.slots + es.length := by
      rw [List.length_append, Pool.length_block]
    have hslots := Pool.slots_cases e
    obtain ⟨fuel, rfl⟩ : ∃ n, fuel = n + 1 := ⟨fuel - 1, by omega⟩
    have he := reads_entry p.size ht hne (fun s hs => hvalid s (hs ▸ .head _)) (hrefs e (.head _))
    obtain ⟨q, hq, hqe⟩ := ih hus (fun s hs => hvalid s (List.mem_append_right _ hs))
      (fun f hf => hrefs f (List.mem_append_right _ hf)) (p.pushed e)
      (show es.length ≤ fuel by omega)
    have hsize : (p.pushed e).size + es.length = p.size + (Pool.block e ++ es).length := by
      rw [hlen, ← Nat.add_assoc, Pool.size_pushed]
    refine ⟨q, ?_, by rw [hqe, Pool.toList_pushed, List.append_assoc]⟩
    rw [entries, if_neg (by omega), List.flatten_cons, ← hflat]
    refine he.bind ?_
    simp only [Pool.push_block]
    rw [hsize] at hq
    exact hq

/-- A pool is read back entry for entry. -/
theorem reads_pool {p : Pool} (hp : p.Inv) (h : p.encode = .ok t)
    (hvalid : ∀ i s, p.get? i = some (.utf8 s) → Utf8.isValid s = true) :
    ∃ q, Reads pool t q ∧ q.entries = p.entries := by
  obtain ⟨chunks, hchunks, h⟩ := bind_eq_ok h
  cases h
  obtain ⟨es, hes, hlaid⟩ := hp.laid
  rw [hes] at hchunks
  cases mapM_eq_ok_iff.1 hchunks with
  | @cons _ u _ ts hu hts =>
  cases hu
  have hget {e : PoolEntry} (he : e ∈ es) : ∃ i, p.get? i = some e := by
    obtain ⟨i, hi⟩ := List.mem_iff_getElem?.1 he
    exact ⟨i + 1, Pool.get?_eq_some_iff.2 ⟨Nat.succ_pos i, by rw [hes]; exact hi⟩⟩
  have hsize : p.size = 1 + es.length := by
    rw [Pool.size, ← Array.length_toList, hes, List.length_cons, Nat.add_comm]
  have hle := hp.size_le
  obtain ⟨q, hq, hqe⟩ := reads_entries hlaid hts
    (fun s hs => (hget hs).elim fun i hi => hvalid i s hi)
    (fun e he r hr => by
      obtain ⟨i, hi⟩ := hget he
      have h1 := hp.refs_lt hi hr
      have h2 := Pool.Inv.lt_size hi
      rw [Pool.maxSize] at hle
      omega) Pool.empty (Nat.le_add_left _ 1)
  refine ⟨q, ?_, ?_⟩
  · refine (reads_wordOr .poolEnded (n := p.size) (by rw [Pool.maxSize] at hle; omega)).bind ?_
    rw [hsize]
    exact hq
  · apply Array.toList_inj.1
    rw [hqe, hes]
    rfl

end Classwright.Read
