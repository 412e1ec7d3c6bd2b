import MethodGraph.Proofs.Frames
/-!
  Memory as a store of bytes.

  Seen from outside, memory is a byte at every allocated address.  Storing an integer puts its bytes
  there, the lowest first, and touches no other; loading one reads as many and extends the sign; an
  access that is not wholly inside fails and does nothing.

  Main statement: this is what memory does in every history of requests, and storage that is
  reserved is zeroed and disjoint from all that was reserved before (`Memory.byte_store`).
-/

namespace MethodGraph

open Nat List Option Int64 UInt64 Array Checked

variable {ranges : List (Set Int)} {k n p : Nat}
namespace Memory

variable {m m' : Memory}

/-! ## Bytes at addresses -/

/-- The byte at an address, if it is allocated. -/
def byteAt (m : Memory) (address : Int) : Option UInt8 :=
  if base ≤ address then m.bytes[(address - base).toNat]? else none

/-- Bits `8 * k` to `8 * k + 7` of a number. -/
def byteOf (v : Int64) (k : Nat) : UInt8 := ⟨v.toBitVec.extractLsb' (8 * k) 8⟩

theorem byteAt_position (m : Memory) (i : Nat) : m.byteAt (base + i) = m.bytes[i]? := by
  unfold byteAt
  rw [if_pos (by omega)]
  congr 1
  omega

theorem mem_span {x : Int} : x ∈ m.span ↔ ∃ i : Nat, i < m.size ∧ x = base + i := by
  unfold span
  rw [Set.mem_Ico]
  constructor
  · rintro ⟨hlow, hhigh⟩
    exact ⟨(x - base).toNat, by omega, by omega⟩
  · rintro ⟨i, hi, rfl⟩
    omega

theorem toNat_byteOf (v : Int64) (k : Nat) :
    (byteOf v k).toNat = v.toUInt64.toNat / 256 ^ k % 256 := by
  show (v.toBitVec.extractLsb' (8 * k) 8).toNat = _
  rw [BitVec.extractLsb'_toNat, shiftRight_eq_div_pow, pow_mul]
  rfl

/-- Writing puts every byte of a number into its place. -/
theorem bytes_writeBytes_inside (m : Memory) (w : UInt64) (hk : k < n) (hn : p + n ≤ m.size) :
    ∃ b, (m.writeBytes p n w).bytes[p + k]? = some b ∧ b.toNat = w.toNat / 256 ^ k % 256 := by
  induction n generalizing m p w k with
  | zero => omega
  | succ n ih =>
    have hsize : (⟨m.bytes.setIfInBounds p w.toUInt8⟩ : Memory).size = m.size :=
      size_setIfInBounds
    have hshift : (w >>> 8).toNat = w.toNat / 256 := by
      rw [UInt64.toNat_shiftRight]
      exact shiftRight_eq_div_pow _ _
    cases k with
    | zero => grind [bytes_writeBytes, UInt64.toNat_toUInt8, writeBytes, size]
    | succ k =>
      obtain ⟨b, hb, hval⟩ := ih ⟨m.bytes.setIfInBounds p w.toUInt8⟩ (p := p + 1) (w >>> 8)
        (by omega) (by rw [hsize]; omega) (k := k)
      refine ⟨b, ?_, ?_⟩
      · rw [← hb, show p + (k + 1) = p + 1 + k by omega]
        rfl
      · rw [hval, hshift, Nat.div_div_eq_div_mul, Nat.pow_succ']

/-- Reading adds up the bytes of its range, the lowest first. -/
theorem readBytes_eq_sum (m : Memory) (p n : Nat) :
    m.readBytes p n = ∑ k ∈ Finset.range n, (m.bytes.getD (p + k) 0).toNat * 256 ^ k := by
  induction n generalizing p with
  | zero => rfl
  | succ n ih =>
    rw [Finset.sum_range_succ', readBytes, ih, Nat.add_zero, Nat.pow_zero, Nat.mul_one,
      add_comm, Finset.mul_sum]
    refine congrArg (· + _) (Finset.sum_congr rfl fun k _ => ?_)
    rw [show p + 1 + k = p + (k + 1) by omega, pow_succ']
    ring

end Memory

namespace Ty

/-- Wrapping extends the sign of the low bytes of a number. -/
theorem toInt_wrapInt_ofNat {ty : Ty} (hty : ty.isIntegral = true) (n : Nat) :
    (ty.wrapInt (UInt64.ofNat n).toInt64).toInt = Int.bmod n (256 ^ ty.size) := by
  have hwide : (UInt64.ofNat n).toInt64.toInt = Int.bmod n (2 ^ 64) := by
    show (BitVec.ofNat 64 n).toInt = _
    rw [BitVec.toInt_eq_toNat_bmod, BitVec.toNat_ofNat, Int.natCast_emod]
    exact Int.emod_bmod _ _
  cases ty with
  | int8 =>
    show (UInt64.ofNat n).toInt64.toInt8.toInt64.toInt = Int.bmod n 256
    rw [Int8.toInt_toInt64, toInt_toInt8, hwide, Int.bmod_bmod_of_dvd (by decide)]
  | int16 =>
    show (UInt64.ofNat n).toInt64.toInt16.toInt64.toInt = Int.bmod n 65536
    rw [Int16.toInt_toInt64, toInt_toInt16, hwide, Int.bmod_bmod_of_dvd (by decide)]
  | int32 =>
    show (UInt64.ofNat n).toInt64.toInt32.toInt64.toInt = Int.bmod n 4294967296
    rw [Int32.toInt_toInt64, toInt_toInt32, hwide, Int.bmod_bmod_of_dvd (by decide)]
  | int64 | address => exact hwide
  | _ => cases hty

end Ty

namespace Memory

variable {m m' : Memory} {a : Int64} {ty : Ty} {s : Scalar}

theorem size_write (m : Memory) (p : Nat) (ty : Ty) (s : Scalar) :
    (m.write p ty s).size = m.size := m.size_writeBytes _ _ _

/-- Writing changes no byte but its own. -/
theorem byteAt_write (hp : m.position? a ty.size = some p) (x : Int)
    (hx : x < a.toInt ∨ a.toInt + ty.size ≤ x) : (m.write p ty s).byteAt x = m.byteAt x := by
  grind [bytes_writeBytes, byteAt, write, position?]

theorem encode_of_isIntegral (hty : ty.isIntegral = true) (s : Scalar) :
    encode ty s = s.toInt.toUInt64 := by
  cases ty with
  | float | double => cases hty
  | _ => rfl

variable (hp : m.position? a ty.size = some p) (hty : ty.isIntegral = true)

include hp hty in
/-- The bytes of a number are put into their places, as many as the type has. -/
theorem byteAt_write_inside (hk : k < ty.size) :
    (m.write p ty s).byteAt (a.toInt + k) = some (byteOf s.toInt k) := by
  obtain ⟨ha, hin⟩ := position?_eq_some.1 hp
  obtain ⟨b, hb, hval⟩ := m.bytes_writeBytes_inside (encode ty s) hk hin
  rw [ha, add_assoc, ← cast_add, byteAt_position]
  refine hb.trans (congrArg some (UInt8.toNat_inj.1 ?_))
  rw [hval, toNat_byteOf, encode_of_isIntegral hty]

include hp hty in
/-- An integer is read as it was stored, up to the width of its type. -/
theorem read_write_integral : (m.write p ty s).read p ty = .int (ty.wrapInt s.toInt) := by
  obtain ⟨-, hin⟩ := position?_eq_some.1 hp
  unfold read write
  rw [readBytes_writeBytes m p ty.size _ hin, encode_of_isIntegral hty]
  have hwhole : ty.isInteger = true ∨ ty = .address := by simpa [Ty.isIntegral] using hty
  have hcut := Ty.wrapInt_low hwhole s.toInt
  cases ty with
  | float | double => cases hty
  | _ => exact congrArg Scalar.int hcut

include hp hty in
/-- What is read is the sum of the bytes, with its sign extended. -/
theorem read_integral :
    ∃ bytes : Nat → UInt8, (∀ k < ty.size, m.byteAt (a.toInt + k) = some (bytes k)) ∧
      ∃ v : Int64, m.read p ty = .int v ∧
        v.toInt = Int.bmod (∑ k ∈ Finset.range ty.size, (bytes k).toNat * 256 ^ k : Nat)
          (256 ^ ty.size) := by
  obtain ⟨ha, hin⟩ := position?_eq_some.1 hp
  refine ⟨fun k => m.bytes.getD (p + k) 0, fun k hk => ?_,
    ty.wrapInt (UInt64.ofNat (m.readBytes p ty.size)).toInt64, ?_, ?_⟩
  · have hlt : p + k < m.bytes.size := Nat.lt_of_lt_of_le (by omega) hin
    rw [ha, add_assoc, ← Nat.cast_add, byteAt_position, Array.getElem?_eq_getElem hlt]
    show _ = some (m.bytes.getD (p + k) 0)
    rw [Array.getD_eq_getD_getElem?, Array.getElem?_eq_getElem hlt]
    rfl
  · cases ty with
    | float | double => cases hty
    | _ => rfl
  · rw [Ty.toInt_wrapInt_ofNat hty, readBytes_eq_sum]

/-! ## Histories -/

/-- What is asked of a memory. -/
inductive Access where
  | alloc (n : Nat)
  | store (address : Int64) (ty : Ty) (content : Scalar)
  | load (address : Int64) (ty : Ty)
  deriving DecidableEq, Repr

/-- How many bytes are moved at once. -/
def Access.width : Access → Nat
  | alloc _ => 0
  | store _ ty _ | load _ ty => ty.size

/-- What the memory answers. -/
inductive Answer where
  | address (a : Int64)
  | stored
  | loaded (s : Scalar)
  | failed (e : EvalError)
  deriving DecidableEq, Repr

/-- The answer to a request, and the memory afterwards. -/
def serve (m : Memory) : Access → Except Fault (Answer × Memory)
  | .alloc n =>
    let (a, m') := m.alloc n
    .ok (.address a, m')
  | .store a ty s => do
    match ← m.store a ty s with
    | .ok m' => return (.stored, m')
    | .error e => return (.failed e, m)
  | .load a ty => do
    match ← m.load a ty with
    | .ok s => return (.loaded s, m)
    | .error e => return (.failed e, m)

/-- The requests with their answers, and the memory after all of them. -/
def serveAll (m : Memory) : List Access → Except Fault (List (Access × Answer) × Memory)
  | [] => .ok ([], m)
  | c :: cs => do
    let (answer, m') ← m.serve c
    let (log, m') ← m'.serveAll cs
    return ((c, answer) :: log, m')

/-- The bytes that a request has reserved, if it was one for storage. -/
def reservation? : Access × Answer → Option (Set Int)
  | (.alloc n, .address a) => some (Set.Ico a.toInt (a.toInt + max n 1))
  | _ => none

/-- The bytes that were reserved, request by request. -/
def reserved (log : List (Access × Answer)) : List (Set Int) := log.filterMap reservation?

theorem serve_alloc (m : Memory) (n : Nat) :
    m.serve (.alloc n) = .ok (.address (m.alloc n).1, (m.alloc n).2) := rfl

theorem access_eq (hty : ty.size ≤ 8) :
    m.access a ty = .ok ((m.position? a ty.size).elim (.error (.outOfBounds a ty.size)) .ok) := by
  grind [access]

theorem serve_store (hty : ty.size ≤ 8) :
    m.serve (.store a ty s) = .ok
      (match m.position? a ty.size with
      | some p => (.stored, m.write p ty s)
      | none => (.failed (.outOfBounds a ty.size), m)) := by
  have hstore : m.serve (.store a ty s) = (m.access a ty >>= fun r =>
      match r.map (m.write · ty s) with
      | .ok m' => .ok (.stored, m')
      | .error e => .ok (.failed e, m)) := by
    show (m.store a ty s >>= _) = _
    unfold store
    cases m.access a ty with
    | error f => rfl
    | ok r => cases r <;> rfl
  rw [hstore, access_eq hty]
  cases m.position? a ty.size <;> rfl

theorem serve_load (hty : ty.size ≤ 8) :
    m.serve (.load a ty) = .ok
      (match m.position? a ty.size with
      | some p => (.loaded (m.read p ty), m)
      | none => (.failed (.outOfBounds a ty.size), m)) := by
  have hload : m.serve (.load a ty) = (m.access a ty >>= fun r =>
      match r.map (m.read · ty) with
      | .ok s => .ok (.loaded s, m)
      | .error e => .ok (.failed e, m)) := by
    show (m.load a ty >>= _) = _
    unfold load
    cases m.access a ty with
    | error f => rfl
    | ok r => cases r <;> rfl
  rw [hload, access_eq hty]
  cases m.position? a ty.size <;> rfl

/-- The bytes lie inside the memory exactly if they have a position. -/
theorem isSome_position? : (m.position? a n).isSome = true ↔
    base ≤ a.toInt ∧ a.toInt + n ≤ base + m.size := by grind [position?]

/-! ## Reserving -/

theorem size_alloc (m : Memory) (n : Nat) :
    (m.alloc n).2.size = Checked.roundUp m.size 8 + max n 1 := by
  grind [size, alloc, Checked.roundUp]

/-- Addresses that are handed out are aligned, even if they wrap around. -/
theorem dvd_alloc (m : Memory) (n : Nat) : (8 : Int) ∣ (m.alloc n).1.toInt := by
  have hdvd : 8 ∣ roundUp m.size 8 := dvd_roundUp _ (by decide)
  have hmod : (m.alloc n).1.toInt % 2 ^ 64 = (base + roundUp m.size 8) % 2 ^ 64 := by
    show (Int64.ofInt (base + Checked.roundUp m.size 8)).toInt % _ = _
    rw [toInt_ofInt]
    exact Int.bmod_emod
  unfold base at hmod
  omega

/-- The memory there was is followed by zeros. -/
theorem byte_alloc (m : Memory) {i : Nat} (hi : i < (m.alloc n).2.size) :
    (m.alloc n).2.byteAt (base + i) = if i < m.size then m.byteAt (base + i) else some 0 := by
  grind [byteAt, alloc, size]

variable (h : (m.alloc n).2.Addressable)

include h in
theorem Addressable.of_alloc : m.Addressable := by
  have hle := m.size_le_alloc n
  unfold Addressable at h ⊢
  omega

include h in
/-- The address that is handed out is that of an aligned position behind all there was. -/
theorem toInt_alloc : (m.alloc n).1.toInt = base + Checked.roundUp m.size 8 := by
  refine toInt_addressOf ?_
  unfold Addressable at h
  rw [size_alloc] at h
  omega

include h in
theorem span_alloc : (m.alloc n).2.span = Set.Ico base ((m.alloc n).1.toInt + max n 1) := by
  unfold span
  rw [toInt_alloc h, size_alloc, cast_add, add_assoc]

include h in
/-- What is handed out lies behind all there was. -/
theorem disjoint_alloc :
    Disjoint m.span (Set.Ico (m.alloc n).1.toInt ((m.alloc n).1.toInt + max n 1)) := by
  grind [le_roundUp, toInt_alloc, mem_span]

/-- As long as all bytes have addresses, what was reserved lies inside the memory. -/
def Reserves (m : Memory) (ranges : List (Set Int)) : Prop :=
  m.Addressable → ∀ r ∈ ranges, r ⊆ m.span

theorem Reserves.of_size (h : m.Reserves ranges)
    (hsize : m'.size = m.size) : m'.Reserves ranges := by
  unfold Reserves Addressable span at h ⊢
  rwa [hsize]

/-- A request adds what it reserves. -/
theorem Reserves.serve {c : Access} {answer : Answer}
    (h : m.Reserves ranges) (hc : c.width ≤ 8) (hrun : m.serve c = .ok (answer, m')) :
    m'.Reserves (ranges ++ (reservation? (c, answer)).toList) := by
  cases c with
  | alloc n =>
    rw [serve_alloc] at hrun
    obtain ⟨rfl, rfl⟩ := Prod.mk.inj (Except.ok.inj hrun)
    intro haddress r hr
    rcases mem_append.1 hr with hr | hr
    · have hle := m.size_le_alloc n
      exact (h haddress.of_alloc r hr).trans (Set.Ico_subset_Ico_right (by omega))
    · grind [span_alloc, toInt_alloc, reservation?]
  | store a ty s => grind [serve_store, size_write, reservation?, Access.width, h.of_size]
  | load a ty => grind [serve_load, reservation?, Access.width]

/-- Requests of at most eight bytes meet no fault, and what they reserve lies inside the memory. -/
theorem Reserves.serveAll {cs : List Access} (h : m.Reserves ranges) (hcs : ∀ c ∈ cs, c.width ≤ 8) :
    ∃ log m', m.serveAll cs = .ok (log, m') ∧ m'.Reserves (ranges ++ reserved log) := by
  induction cs generalizing m ranges with
  | nil => exact ⟨[], m, rfl, by simpa [reserved] using h⟩
  | cons c cs ih =>
    have hc := hcs c mem_cons_self
    obtain ⟨⟨answer, m1⟩, hrun⟩ : ∃ p, m.serve c = .ok p := by
      cases c with
      | alloc n => exact ⟨_, rfl⟩
      | store a ty s => exact ⟨_, serve_store hc⟩
      | load a ty => exact ⟨_, serve_load hc⟩
    obtain ⟨log, m', hrest, hm'⟩ :=
      ih (h.serve hc hrun) fun d hd => hcs d (mem_cons_of_mem _ hd)
    refine ⟨(c, answer) :: log, m', ?_, ?_⟩
    · show (m.serve c >>= _) = _
      rw [hrun]
      show (m1.serveAll cs >>= _) = _
      rw [hrest]
      rfl
    · grind [reserved]

/-! ## Memory is a store of bytes -/

/-- After any history of requests that move at most eight bytes each, which meets no fault:

    Reserving answers with an aligned address and leaves the bytes there were as they are.  The
    bytes from that address on are then allocated, zero and disjoint from all that were reserved
    before, as long as there are addresses for all bytes.

    Storing succeeds exactly if its bytes lie inside the memory, and changes nothing otherwise.  It
    changes no byte but its own; those of an integral type are then those of the number, the lowest
    first, and loading the same type there gives the number, wrapped.

    Loading changes nothing and succeeds exactly if its bytes lie inside the memory.  For an
    integral type it gives the number that these bytes make, the lowest first, with its sign
    extended. -/
theorem byte_store (past : List Access) (hpast : ∀ c ∈ past, c.width ≤ 8) :
    ∃ log m, empty.serveAll past = .ok (log, m) ∧
      (∀ n, ∃ a m', m.serve (.alloc n) = .ok (.address a, m') ∧ 8 ∣ a.toInt ∧
        (∀ x ∈ m.span, m'.byteAt x = m.byteAt x) ∧
        (m'.Addressable → m'.span = Set.Ico base (a.toInt + max n 1) ∧
          (∀ x ∈ Set.Ico a.toInt (a.toInt + max n 1), m'.byteAt x = some 0) ∧
          ∀ r ∈ reserved log, Disjoint r (Set.Ico a.toInt (a.toInt + max n 1)))) ∧
      (∀ a ty s, ty.size ≤ 8 → ∃ answer m', m.serve (.store a ty s) = .ok (answer, m') ∧
        (answer = .stored ↔ base ≤ a.toInt ∧ a.toInt + ty.size ≤ base + m.size) ∧
        (answer ≠ .stored → answer = .failed (.outOfBounds a ty.size) ∧ m' = m) ∧
        (∀ x ∉ Set.Ico a.toInt (a.toInt + ty.size), m'.byteAt x = m.byteAt x) ∧
        (answer = .stored → ty.isIntegral = true →
          (∀ k < ty.size, m'.byteAt (a.toInt + k) = some (byteOf s.toInt k)) ∧
          m'.serve (.load a ty) = .ok (.loaded (.int (ty.wrapInt s.toInt)), m'))) ∧
      ∀ a ty, ty.size ≤ 8 → ∃ answer, m.serve (.load a ty) = .ok (answer, m) ∧
        ((∃ s, answer = .loaded s) ↔ base ≤ a.toInt ∧ a.toInt + ty.size ≤ base + m.size) ∧
        ((∀ s, answer ≠ .loaded s) → answer = .failed (.outOfBounds a ty.size)) ∧
        ∀ s, answer = .loaded s → ty.isIntegral = true →
          ∃ (bytes : Nat → UInt8) (v : Int64), s = .int v ∧
            (∀ k < ty.size, m.byteAt (a.toInt + k) = some (bytes k)) ∧
            v.toInt = Int.bmod (∑ k ∈ Finset.range ty.size, (bytes k).toNat * 256 ^ k : Nat)
              (256 ^ ty.size) := by
  have hempty : empty.Reserves [] := fun _ r hr => absurd hr List.not_mem_nil
  obtain ⟨log, m, hrun, hreserves⟩ := hempty.serveAll hpast
  refine ⟨log, m, hrun, fun n => ⟨_, _, serve_alloc m n, m.dvd_alloc n, ?_, ?_⟩,
    fun a ty s hty => ?_, fun a ty hty => ?_⟩
  · intro x hx
    obtain ⟨i, hi, rfl⟩ := mem_span.1 hx
    rw [m.byte_alloc (Nat.lt_of_lt_of_le hi (m.size_le_alloc n)), if_pos hi]
  · intro haddress
    have hspan := span_alloc haddress
    have hdisjoint := disjoint_alloc haddress
    refine ⟨hspan, fun x hx => ?_, fun r hr => ?_⟩
    · have hin : x ∈ (m.alloc n).2.span := by
        rw [hspan]
        refine Set.Ico_subset_Ico_left ?_ hx
        rw [toInt_alloc haddress]
        omega
      obtain ⟨i, hi, rfl⟩ := mem_span.1 hin
      rw [m.byte_alloc hi, if_neg]
      exact fun hlt => Set.disjoint_left.1 hdisjoint (mem_span.2 ⟨i, hlt, rfl⟩) hx
    · exact Set.disjoint_of_subset_left (hreserves haddress.of_alloc r hr) hdisjoint
  · rw [serve_store hty, ← isSome_position?]
    cases hp : m.position? a ty.size with
    | none =>
      exact ⟨_, m, rfl, by simp, fun _ => ⟨rfl, rfl⟩, fun _ _ => rfl, nofun⟩
    | some p =>
      refine ⟨_, _, rfl, by simp, fun h => absurd rfl h, fun x hx => ?_, fun _ hint => ⟨?_, ?_⟩⟩
      · refine byteAt_write hp x ?_
        rw [Set.mem_Ico] at hx
        omega
      · exact fun k hk => byteAt_write_inside hp hint hk
      · have hp' : (m.write p ty s).position? a ty.size = some p := by
          rw [position?_congr (size_write _ _ _ _), hp]
        rw [serve_load hty, hp']
        dsimp only
        rw [read_write_integral hp hint]
  · rw [serve_load hty, ← isSome_position?]
    cases hp : m.position? a ty.size with
    | none => exact ⟨_, rfl, by simp, fun _ => rfl, nofun⟩
    | some p =>
      refine ⟨_, rfl, by simp, fun h => absurd rfl (h _), fun s hs hint => ?_⟩
      obtain ⟨bytes, hbytes, v, hv, hval⟩ := read_integral hp hint
      cases hs
      exact ⟨bytes, v, hv, hbytes, hval⟩

/-- Two numbers of which the second is stored into the middle of the first, and a third for which
    there is not enough room. -/
def overlapping : List Access := [
  .alloc 12, .store 0x1002 .int32 (.int 0x01028384), .store 0x1003 .int16 (.int (-2)),
  .store 0x100a .int32 (.int 7)]

/-- A case of it: what is loaded has its outer bytes from the first number and its inner ones from
    the second, and a byte that is stored next is loaded with its sign. -/
theorem byte_store_overlapping : (∀ c ∈ overlapping, c.width ≤ 8) ∧
    ∃ log m, empty.serveAll overlapping = .ok (log, m) ∧
      log.map (·.2) = [.address 0x1000, .stored, .stored, .failed (.outOfBounds 0x100a 4)] ∧
      m.serve (.load 0x1002 .int32) = .ok (.loaded (.int 0x01fffe84), m) ∧
      ∃ m', m.serve (.store 0x1004 .int8 (.int 0x180)) = .ok (.stored, m') ∧
        m'.serve (.load 0x1004 .int8) = .ok (.loaded (.int (-128)), m') := by
  have hanswers : (empty.serveAll overlapping).map (fun p => (p.1.map (·.2), p.2)) =
      .ok ([.address 0x1000, .stored, .stored, .failed (.outOfBounds 0x100a 4)],
        ⟨#[0, 0, 0x84, 0xfe, 0xff, 0x01, 0, 0, 0, 0, 0, 0]⟩) := by decide +kernel
  refine ⟨by decide, ?_⟩
  obtain ⟨log, m, hrun, -, hstore, -⟩ := byte_store overlapping (by decide)
  rw [hrun] at hanswers
  obtain ⟨hlog, rfl⟩ := Prod.mk.inj (Except.ok.inj hanswers)
  refine ⟨log, _, hrun, hlog, by decide +kernel, ?_⟩
  obtain ⟨answer, m', hserve, hiff, -, -, hback⟩ := hstore 0x1004 .int8 (.int 0x180) (by decide)
  have hin : answer = .stored := hiff.2 (by decide)
  rw [hin] at hserve
  exact ⟨m', hserve, (hback hin rfl).2⟩

end Memory
end MethodGraph
