import K2Cache.Spec.Socket

/-!
# Requests come out of the socket whole

What counts of a socket is the bytes that arrive before the stream ends or fails, and
whether it does (`arrivals`, `ends`): neither the pieces they arrive in nor the
interruptions between them.

* `readNbytes_spec`: reading takes the first `n` of these bytes, if they come.
* `getMessages_spec`: so the calls of `get_next_message` return the messages framed in them.
-/

namespace K2Cache

open Lib

namespace Socket

/-- The bytes that arrive before the stream ends or fails. -/
def arrivals : Socket → Bytes
  | [] => []
  | .arrived b bs :: s => b :: bs ++ arrivals s
  | .interrupted :: s => arrivals s
  | .endOfStream :: _ => []
  | .failed :: _ => []

/-- Whether the stream ends or fails. -/
def ends : Socket → Bool
  | [] => false
  | .arrived _ _ :: s => ends s
  | .interrupted :: s => ends s
  | .endOfStream :: _ => true
  | .failed :: _ => true

@[simp] theorem arrivals_pushFront (s : Socket) (bs : Bytes) : arrivals (pushFront s bs) = bs ++ arrivals s := by
  cases bs <;> rfl

@[simp] theorem ends_pushFront (s : Socket) (bs : Bytes) : ends (pushFront s bs) = ends s := by
  cases bs <;> rfl

end Socket

open Socket

/-! ## A single read -/

/-- What is written behind the bytes read so far keeps them. -/
theorem writeBuffer_eq {buffer : Bytes} {offset : ℕ} {bs : Bytes} (h : offset + bs.length ≤ buffer.length) :
    ∃ buffer', writeBuffer buffer offset bs = some buffer' ∧ buffer'.length = buffer.length ∧
      buffer'.take (offset + bs.length) = buffer.take offset ++ bs := by
  have hoff : (buffer.take offset).length = offset := by
    rw [List.length_take]
    omega
  refine ⟨_, if_pos h, ?_, ?_⟩
  · simp only [List.length_append, List.length_drop, hoff]
    omega
  · have hlen : (buffer.take offset ++ bs).length = offset + bs.length := by rw [List.length_append, hoff]
    rw [← hlen, List.take_left]

/-- What reading `n` bytes comes to: they are in the buffer and no others are gone, or the
stream ended, or the call waits. -/
structure ReadsExactly (n : ℕ) (pre : Bytes) (s : Socket) (r : Except ReadHalt Bool × ReadState) : Prop where
  enough : n ≤ (pre ++ arrivals s).length → r.1 = .ok true ∧ r.2.buffer = (pre ++ arrivals s).take n ∧
    arrivals r.2.socket = (pre ++ arrivals s).drop n ∧ ends r.2.socket = ends s
  ended : (pre ++ arrivals s).length < n → ends s = true → r.1 = .ok false
  waits : (pre ++ arrivals s).length < n → ends s = false → r.1 = .error .waiting

variable {n fuel offset : ℕ} {buffer : Bytes} {s : Socket}

theorem readLoop_interrupted (h : offset < n) :
    readLoop n (fuel + 1) offset ⟨buffer, .interrupted :: s⟩ = readLoop n fuel offset ⟨buffer, s⟩ := by
  have hlen : n - offset ≠ 0 := by omega
  simp only [readLoop, recv, hlen, if_false, if_true]

theorem readLoop_failed (h : offset < n) :
    readLoop n (fuel + 1) offset ⟨buffer, .failed :: s⟩ = (.ok false, ⟨buffer, s⟩) := by
  have hlen : n - offset ≠ 0 := by omega
  simp only [readLoop, recv, hlen, if_false, Bool.false_eq_true]

theorem readLoop_endOfStream (h : offset < n) (hbuf : buffer.length = n) :
    (readLoop n (fuel + 1) offset ⟨buffer, .endOfStream :: s⟩).1 = .ok false := by
  have hlen : n - offset ≠ 0 := by omega
  have hroom : offset ≤ buffer.length := by omega
  simp [readLoop, recv, hlen, writeBuffer, hroom]

theorem readLoop_nil (h : offset < n) : readLoop n (fuel + 1) offset ⟨buffer, []⟩ = (.error .waiting, ⟨buffer, []⟩) := by
  have hlen : n - offset ≠ 0 := by omega
  simp only [readLoop, recv, hlen, if_false]

theorem readLoop_arrived {b : UInt8} {bs buffer' : Bytes} (h : offset < n)
    (hw : writeBuffer buffer offset ((b :: bs).take (n - offset)) = some buffer') :
    readLoop n (fuel + 1) offset ⟨buffer, .arrived b bs :: s⟩ =
      if offset + ((b :: bs).take (n - offset)).length = n then (.ok true, ⟨buffer', pushFront s ((b :: bs).drop (n - offset))⟩)
      else readLoop n fuel (offset + ((b :: bs).take (n - offset)).length)
        ⟨buffer', pushFront s ((b :: bs).drop (n - offset))⟩ := by
  have hlen : n - offset ≠ 0 := by omega
  have hne : ((b :: bs).take (n - offset)).length ≠ 0 := by
    rw [List.length_take, List.length_cons]
    omega
  simp only [readLoop, recv, hlen, if_false, hw, hne]

/-- A stream that is over in front of `n` bytes. -/
theorem ReadsExactly.of_short {pre : Bytes} {r : Except ReadHalt Bool × ReadState} (hpre : pre.length < n)
    (hs : arrivals s = []) (hr : r.1 = if ends s then .ok false else .error .waiting) : ReadsExactly n pre s r := by
  refine ⟨fun h => ?_, fun _ h => ?_, fun _ h => ?_⟩
  · rw [hs, List.append_nil] at h
    omega
  · rw [hr, if_pos h]
  · rw [hr, h]
    rfl

/-- **The loop**, with `offset` bytes read. The induction is on the fuel; every round that
goes on has used up an event. -/
theorem readLoop_spec (hfuel : s.length < fuel) (hoff : offset < n) (hbuf : buffer.length = n) :
    ReadsExactly n (buffer.take offset) s (readLoop n fuel offset ⟨buffer, s⟩) := by
  induction fuel generalizing offset buffer s with
  | zero => omega
  | succ fuel ih =>
    have hpre : (buffer.take offset).length = offset := by
      rw [List.length_take]
      omega
    cases s with
    | nil =>
      rw [readLoop_nil hoff]
      exact .of_short (by omega) rfl rfl
    | cons e s =>
      rw [List.length_cons] at hfuel
      cases e with
      | interrupted =>
        rw [readLoop_interrupted hoff]
        have hnext := ih (s := s) (by omega) hoff hbuf
        exact ⟨hnext.enough, hnext.ended, hnext.waits⟩
      | failed =>
        rw [readLoop_failed hoff]
        exact .of_short (by omega) rfl rfl
      | endOfStream => exact .of_short (by omega) rfl (readLoop_endOfStream hoff hbuf)
      | arrived b bs =>
        set piece := (b :: bs).take (n - offset) with hpiece
        have hplen : piece.length = min (n - offset) (bs.length + 1) := by rw [hpiece, List.length_take, List.length_cons]
        have hroom : offset + piece.length ≤ buffer.length := by omega
        obtain ⟨buffer', hw, hbuf', htake⟩ := writeBuffer_eq hroom
        rw [readLoop_arrived hoff hw, ← hpiece]
        have hall : buffer.take offset ++ arrivals (.arrived b bs :: s) =
            (buffer.take offset ++ piece) ++ ((b :: bs).drop (n - offset) ++ arrivals s) := by
          rw [hpiece, List.append_assoc, ← List.append_assoc ((b :: bs).take _), List.take_append_drop]
          rfl
        by_cases hdone : offset + piece.length = n
        · -- the read is complete; what is left of the piece stays
          rw [if_pos hdone]
          have hn : (buffer.take offset ++ piece).length = n := by rw [List.length_append, hpre, hdone]
          refine ⟨fun _ => ⟨rfl, ?_, ?_, ends_pushFront _ _⟩, fun h => ?_, fun h => ?_⟩
          · rw [hall, ← hn, List.take_left, ← htake, hdone, ← hbuf, ← hbuf', List.take_length]
          · rw [hall, ← hn, List.drop_left, hn]
            exact arrivals_pushFront _ _
          · rw [hall, List.length_append] at h
            omega
          · rw [hall, List.length_append] at h
            omega
        · rw [if_neg hdone]
          have hshort : (b :: bs).length ≤ n - offset := by
            rw [List.length_cons]
            omega
          have hrest : (b :: bs).drop (n - offset) = [] := List.drop_eq_nil_of_le hshort
          rw [hrest]
          have hnext : ReadsExactly n (buffer'.take (offset + piece.length)) s
              (readLoop n fuel (offset + piece.length) ⟨buffer', s⟩) := ih (by omega) (by omega) (hbuf'.trans hbuf)
          rw [htake] at hnext
          rw [hrest, List.nil_append] at hall
          refine ⟨fun h => ?_, fun h => ?_, fun h => ?_⟩
          · rw [hall] at h ⊢
            exact hnext.enough h
          · rw [hall] at h
            exact hnext.ended h
          · rw [hall] at h
            exact hnext.waits h

/-- **A read of `n` bytes.** -/
theorem readNbytes_spec (hn : 1 ≤ n) (hbuf : buffer.length = n) (s : Socket) :
    ReadsExactly n [] s (readNbytesFromSocket n ⟨buffer, s⟩) := by
  have h : ReadsExactly n (buffer.take 0) s (readLoop n (s.length + 1) 0 ⟨buffer, s⟩) :=
    readLoop_spec (Nat.lt_succ_self _) hn hbuf
  rwa [List.take_zero] at h

/-- Bytes that have come, read into a new buffer. -/
theorem readNbytes_prefix {bs rest : Bytes} (hlen : bs.length = n) (hn : 1 ≤ n) (h : arrivals s = bs ++ rest) :
    ∃ s', readNbytesFromSocket n ⟨List.replicate n 0, s⟩ = (.ok true, ⟨bs, s'⟩) ∧ arrivals s' = rest ∧ ends s' = ends s := by
  have hread := (readNbytes_spec hn (List.length_replicate (n := n) (a := (0 : UInt8))) s).enough (by
    rw [List.nil_append, h, List.length_append]
    omega)
  rw [List.nil_append, h, List.take_left' hlen, List.drop_left' hlen] at hread
  obtain ⟨h1, h2, h3, h4⟩ := hread
  refine ⟨_, Prod.ext h1 ?_, h3, h4⟩
  rw [← h2]

/-- What `read_nbytes_from_socket` promises: it returns true if and only if `n` bytes come, which
are then in the buffer, and no others are gone. It stays inside the buffer. -/
structure Reassembles (n : ℕ) (s : Socket) (r : Except ReadHalt Bool × ReadState) : Prop where
  returns : r.1 = .ok true ↔ n ≤ (arrivals s).length
  buffer : r.1 = .ok true → r.2.buffer = (arrivals s).take n ∧ arrivals r.2.socket = (arrivals s).drop n
  gives_up : r.1 = .ok false ↔ (arrivals s).length < n ∧ ends s = true
  inside : r.1 ≠ .error .outsideBuffer ∧ r.1 ≠ .error .outOfFuel

theorem ReadsExactly.reassembles {r : Except ReadHalt Bool × ReadState} (h : ReadsExactly n [] s r) : Reassembles n s r := by
  obtain ⟨henough, hended, hwaits⟩ := h
  simp only [List.nil_append] at henough hended hwaits
  by_cases hn : n ≤ (arrivals s).length
  · obtain ⟨h1, h2, h3, -⟩ := henough hn
    refine ⟨iff_of_true h1 hn, fun _ => ⟨h2, h3⟩, ?_, ?_⟩
    · rw [h1]
      simp only [Except.ok.injEq, Bool.true_eq_false, false_iff]
      omega
    · simp [h1]
  · have hlt : (arrivals s).length < n := by omega
    cases he : ends s with
    | true =>
      have h1 := hended hlt he
      constructor <;> simp [h1, he, hn, hlt]
    | false =>
      have h1 := hwaits hlt he
      constructor <;> simp [h1, he, hn]

/-! ## Messages -/

/-- The body of a request that has one. -/
structure Body where
  bytes : Bytes
  nonempty : 1 ≤ bytes.length
  fits : bytes.length < 2 ^ 32

namespace Body

/-- A body as it is sent. -/
def frame (b : Body) : Bytes := u32Bytes (UInt32.ofNat b.bytes.length) ++ b.bytes

/-- The message `get_next_message` makes of it. -/
def message (b : Body) : Message := ⟨UInt32.ofNat b.bytes.length, b.bytes⟩

theorem toNat_size (b : Body) : (UInt32.ofNat b.bytes.length).toNat = b.bytes.length := by
  rw [UInt32.toNat_ofNat', Nat.mod_eq_of_lt b.fits]

end Body

theorem fromBigEndian_u32Bytes (v : UInt32) : fromBigEndian (u32Bytes v) = v.toNat := by
  rw [u32Bytes, fromBigEndian_bigEndian]
  exact Nat.mod_eq_of_lt v.toNat_lt

theorem fromBigEndian_lt (bs : Bytes) : fromBigEndian bs < 256 ^ bs.length := by
  induction bs using List.reverseRecOn with
  | nil => simp [fromBigEndian]
  | append_singleton bs b ih =>
    have hb := b.toNat_lt
    rw [fromBigEndian_append_singleton, List.length_append, List.length_singleton, pow_succ]
    omega

/-- Bytes that do not make a whole request. -/
def Incomplete (bs : Bytes) : Prop := bs.length < 4 ∨ bs.length < 4 + fromBigEndian (bs.take 4)

namespace ClientReqHandlerImpl

/-- **A request that has arrived whole** is returned, and what is behind it stays. -/
theorem getNextMessage_frame {b : Body} {rest : Bytes} (h : arrivals s = b.frame ++ rest) :
    ∃ s', getNextMessage s = (.ok (some b.message), s') ∧ arrivals s' = rest ∧ ends s' = ends s := by
  rw [Body.frame, List.append_assoc] at h
  obtain ⟨s₁, h1, h2, h3⟩ := readNbytes_prefix (u32Bytes_length _) (by omega) h
  obtain ⟨s', h4, h5, h6⟩ := readNbytes_prefix rfl b.nonempty h2
  refine ⟨s', ?_, h5, h6.trans h3⟩
  unfold getNextMessage
  rw [h1]
  show readMessage (.construct (UInt32.ofNat (fromBigEndian (u32Bytes _)))) s₁ = _
  rw [fromBigEndian_u32Bytes, UInt32.ofNat_toNat, readMessage, Message.construct, b.toNat_size, h4]
  rfl

/-- **In front of an incomplete request** there is no message: the stream ends, or the call waits. -/
theorem getNextMessage_incomplete (h : Incomplete (arrivals s)) :
    (getNextMessage s).1 = if ends s then .ok none else .error .waiting := by
  have hsize := readNbytes_spec (by omega : 1 ≤ 4) (List.length_replicate (n := 4) (a := (0 : UInt8))) s
  set r₁ := readNbytesFromSocket 4 ⟨List.replicate 4 0, s⟩ with hr₁
  have hstop : ∀ {x : Except ReadHalt Bool}, r₁.1 = x → (x = .ok false → (getNextMessage s).1 = .ok none) ∧
      (x = .error .waiting → (getNextMessage s).1 = .error .waiting) := by
    intro x hx
    have hr : r₁ = (x, r₁.2) := Prod.ext hx rfl
    unfold getNextMessage
    rw [← hr₁, hr]
    constructor
    · rintro rfl
      rfl
    · rintro rfl
      rfl
  by_cases hshort : (arrivals s).length < 4
  · cases he : ends s with
    | true => exact (hstop (hsize.ended hshort he)).1 rfl
    | false => exact (hstop (hsize.waits hshort he)).2 rfl
  · obtain ⟨h1, h2, h3, h4⟩ := hsize.enough (by
      rw [List.nil_append]
      omega)
    rw [List.nil_append] at h2 h3
    have hneed := h.resolve_left hshort
    set size := fromBigEndian ((arrivals s).take 4) with hsizeDef
    have hlt : size < 2 ^ 32 := by
      have := fromBigEndian_lt ((arrivals s).take 4)
      rwa [List.length_take, min_eq_left (by omega)] at this
    have hnat : (UInt32.ofNat size).toNat = size := by rw [UInt32.toNat_ofNat', Nat.mod_eq_of_lt hlt]
    have hrest : (arrivals r₁.2.socket).length < size := by
      rw [h3, List.length_drop]
      omega
    have hbody := readNbytes_spec (by omega : 1 ≤ size) (List.length_replicate (n := size) (a := (0 : UInt8))) r₁.2.socket
    set r₂ := readNbytesFromSocket size ⟨List.replicate size 0, r₁.2.socket⟩ with hr₂
    have hr : r₁ = (.ok true, r₁.2) := Prod.ext h1 rfl
    unfold getNextMessage
    rw [← hr₁, hr]
    show (readMessage (.construct (UInt32.ofNat (fromBigEndian r₁.2.buffer))) r₁.2.socket).1 = _
    rw [h2, ← hsizeDef, readMessage, Message.construct, hnat, ← hr₂]
    cases he : ends s with
    | true =>
      have hr' : r₂ = (.ok false, r₂.2) := Prod.ext (hbody.ended hrest (h4.trans he)) rfl
      rw [hr']
      rfl
    | false =>
      have hr' : r₂ = (.error .waiting, r₂.2) := Prod.ext (hbody.waits hrest (h4.trans he)) rfl
      rw [hr']
      rfl

/-- What the calls make of requests that arrive in any pieces, and what comes behind them. -/
def Delivers (bodies : List Body) (tail : Bytes) (s : Socket) : Prop :=
  ∃ s', getMessages bodies.length s = (.ok (bodies.map fun b => some b.message), s') ∧ arrivals s' = tail ∧
    (getNextMessage s').1 = if ends s then .ok none else .error .waiting

/-- **The requests of a stream** are returned one after the other. -/
theorem getMessages_spec {bodies : List Body} {tail : Bytes} (htail : Incomplete tail)
    (h : arrivals s = bodies.flatMap Body.frame ++ tail) : Delivers bodies tail s := by
  induction bodies generalizing s with
  | nil =>
    rw [List.flatMap_nil, List.nil_append] at h
    exact ⟨s, rfl, h, getNextMessage_incomplete (h ▸ htail)⟩
  | cons b bodies ih =>
    rw [List.flatMap_cons, List.append_assoc] at h
    obtain ⟨s₁, h1, h2, h3⟩ := getNextMessage_frame h
    obtain ⟨s', h4, h5, h6⟩ := ih h2
    refine ⟨s', ?_, h5, h3 ▸ h6⟩
    have hrest : (do let messages ← getMessages bodies.length; pure (some b.message :: messages) : Act ReadHalt Socket _) s₁ =
        (.ok (some b.message :: bodies.map fun b => some b.message), s') := (Act.bind_ok h4).trans rfl
    exact (Act.bind_ok h1).trans hrest

end ClientReqHandlerImpl

/-- **Socket reads reassemble what was sent**, however it is split and interrupted. -/
theorem socket_reassembles :
    (∀ n buffer s, 1 ≤ n → buffer.length = n → Reassembles n s (readNbytesFromSocket n ⟨buffer, s⟩)) ∧
      ∀ bodies tail s, Incomplete tail → arrivals s = bodies.flatMap Body.frame ++ tail →
        ClientReqHandlerImpl.Delivers bodies tail s :=
  ⟨fun _ _ s hn hbuf => (readNbytes_spec hn hbuf s).reassembles,
    fun _ _ _ htail h => ClientReqHandlerImpl.getMessages_spec htail h⟩

/-- A request that comes in four pieces, with an interruption inside its size. -/
def splitRequest : Socket :=
  [.arrived 0 [0], .interrupted, .arrived 0 [2, 97], .arrived 98 [], .endOfStream]

theorem socket_reassembles_split :
    Reassembles 4 splitRequest (readNbytesFromSocket 4 ⟨[0, 0, 0, 0], splitRequest⟩) ∧
      ClientReqHandlerImpl.Delivers [⟨[97, 98], by decide, by decide⟩] [] splitRequest :=
  ⟨socket_reassembles.1 4 _ _ (by decide) rfl, socket_reassembles.2 _ _ _ (Or.inl (by decide)) (by decide +kernel)⟩

end K2Cache
