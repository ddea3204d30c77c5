import Snort.Stream.Base.StreamHa

/-!
# Update messages from one peer to the other

A message holds an entry for the session client and for each pending client, and
the loop on the receiving side calls the clients of the entries in their order.
A pending client writes through `FlowHAClient::place`, which never writes the last
byte of a message: messages arrive as they should only if no client is pending.
-/

namespace Snort.Ha
open List Option Sfip Snort.Flow HAMessage Codec
open BitVec (ofNat)

/-! ## Clients that place their content -/

/-- The calls of `place` in `produce`. What a client does next may depend on what `place` returned.
The length of a piece is passed as a `uint8_t`. -/
inductive Placer where
  | ret (ok : Bool)
  | place (data : List Byte) (hsize : data.length < 256) (next : Bool → Placer)

namespace Placer

def run : Placer → HAMessage → Option (Bool × HAMessage)
  | .ret ok, msg => some (ok, msg)
  | .place data _ next, msg => do
    let (placed, msg) ← msg.place data
    (next placed).run msg

/-- The bytes of all pieces, as long as each is placed. -/
def content : Placer → List Byte
  | .ret _ => []
  | .place data _ next => data ++ (next true).content
end Placer

/-- A client whose `produce` places as many bytes as its header says. -/
structure PlacingClient where
  length : Byte
  produce : Flow → Placer
  exact : ∀ flow, (produce flow).content.length = length.toNat
  consume : Option Flow → FlowKey → HAMessage → Option (Bool × Option Flow × HAMessage)

def PlacingClient.client (c : PlacingClient) : FlowHAClient where
  length := c.length
  produce flow msg := (c.produce flow).run msg
  consume := c.consume
  isUpdateRequired flow := (false, flow)

variable (newFlow : FlowKey → Option Flow) (elapsed : Bool)

/-- The session client and up to sixteen clients that place their content. -/
def placingMap (others : List PlacingClient) (hle : others.length ≤ 16) :
    ClientMap where
  session := streamHAClient newFlow elapsed
  others := others.map PlacingClient.client
  le := by rwa [length_map]

/-! ## What a message should hold -/

/-- A client with its content. -/
structure Entry where
  client : ℕ
  content : List Byte

/-- A client header and the content. -/
def Entry.bytes (e : Entry) : List Byte :=
  [ofNat 8 e.client, ofNat 8 e.content.length] ++ e.content

def sessionEntry (flow : Flow) : Entry := ⟨0, sessionContentCodec.encode (sessionContent flow)⟩

variable (others : List PlacingClient)

/-- The pending clients, in the order of their indexes. -/
def pendingClients (flow : Flow) : List (PlacingClient × ℕ) :=
  (others.zipIdx 1).filter fun c => flow.haState.checkPending (1 <<< (c.2 - 1))

def entries (flow : Flow) : List Entry :=
  sessionEntry flow ::
    (pendingClients others flow).map fun c => ⟨c.2, (c.1.produce flow).content⟩

def contentBytes (flow : Flow) : List Byte :=
  (entries others flow).flatMap Entry.bytes

/-- The type of a key and the key. -/
def keyBytes (key : FlowKey) : List Byte :=
  if isIp6Key key then keyTypeIp6 :: keyCodec.encode key
  else keyTypeIp4 :: (word32.encode (key.ipL 3) ++ word32.encode (key.ipH 3) ++
    keyRestCodec.encode (keyRest key))

/-- The bytes of the header of an update whose content has a given length, and of its key. -/
def messageHead (contentLength : ℕ) (key : FlowKey) : List Byte :=
  [haUpdateEvent, haMessageVersion] ++ word16.encode (ofNat 16 contentLength) ++ keyBytes key

def headBytes (flow : Flow) : List Byte :=
  messageHead (contentBytes others flow).length flow.key

/-- The calls of `consume` for entries that start at an offset. -/
def calls (key : FlowKey) : ℕ → List Entry → List Call
  | _, [] => []
  | offset, e :: es => ⟨e.client, key, offset + 2⟩ :: calls key (offset + e.bytes.length) es

/-- `consume` reads the content of the client, wherever it is. -/
def PlacingClient.Accepts (c : PlacingClient) : Prop :=
  ∀ flow key msg, msg.cursor + c.length.toNat ≤ msg.content.length →
    ∃ flow', c.consume flow key msg =
      some (true, flow', { msg with cursor := msg.cursor + c.length.toNat })

/-- The message has the entries behind its header and the key. On a peer that has or can create the
flow and whose clients accept their contents, all of them are called, each with its own content. -/
structure RoundTrip (newFlow : FlowKey → Option Flow) (elapsed : Bool) (others : List PlacingClient)
    (hle : others.length ≤ 16) (flow : Flow) (message : List Byte) : Prop where
  message_eq : message = headBytes others flow ++ contentBytes others flow
  receipt : ∀ getFlow : FlowKey → Option Flow,
    sessionFlow newFlow flow.key (sessionContent flow) (getFlow flow.key) ≠ none →
    (∀ c ∈ others, c.Accepts) →
    ∃ flow', consumeReceiveMessage (placingMap newFlow elapsed others hle) getFlow message =
      some (some (.complete, flow', calls flow.key (headBytes others flow).length
        (entries others flow)))

/-! ## Writing -/

section Writing
variable {msg : HAMessage} {out buffer : List Byte}

section
variable (h : msg.Written out buffer) (hsize : buffer.length < 65536)
include h hsize

theorem HAMessage.Written.fit_iff (size : ℕ) :
    msg.fit size = true ↔ out.length + size < buffer.length := by
  rw [fit, contentLength, h.length, h.cursor, Nat.mod_eq_of_lt hsize,
    decide_eq_true_eq]
  omega

theorem HAMessage.Written.place_of_lt (data : List Byte)
    (hlt : out.length + data.length < buffer.length) :
    ∃ msg', msg.place data = some (true, msg') ∧ msg'.Written (out ++ data) buffer := by
  obtain ⟨msg', hwrite, hwritten⟩ := h.write data (Nat.le_of_lt hlt)
  refine ⟨msg', ?_, hwritten⟩
  rw [HAMessage.place, if_pos ((h.fit_iff hsize _).mpr hlt), hwrite]
  rfl

theorem HAMessage.Written.place (hlt : out.length < buffer.length) (data : List Byte) :
    ∃ placed msg' out', msg.place data = some (placed, msg') ∧ msg'.Written out' buffer ∧
      out'.length < buffer.length := by
  by_cases hroom : out.length + data.length < buffer.length
  · obtain ⟨msg', hplace, hwritten⟩ := h.place_of_lt hsize data hroom
    exact ⟨true, msg', out ++ data, hplace, hwritten, by rwa [length_append]⟩
  · refine ⟨false, msg, out, ?_, h, hlt⟩
    rw [HAMessage.place, if_neg ((h.fit_iff hsize _).not.mpr hroom)]
end

/-- A client that places its content leaves the last byte as it is. -/
theorem Placer.run_written (p : Placer) (h : msg.Written out buffer) (hsize : buffer.length < 65536)
    (hlt : out.length < buffer.length) :
    ∃ ok msg' out', p.run msg = some (ok, msg') ∧ msg'.Written out' buffer ∧
      out'.length < buffer.length := by
  induction p generalizing msg out with
  | ret ok => exact ⟨ok, msg, out, rfl, h, hlt⟩
  | place data hdata next ih =>
    obtain ⟨placed, msg₁, out₁, hplace, hwritten₁, hlt₁⟩ := h.place hsize hlt data
    obtain ⟨ok, msg', out', hrun, hend⟩ := ih placed hwritten₁ hlt₁
    refine ⟨ok, msg', out', ?_, hend⟩
    rw [Placer.run, hplace]
    exact hrun

theorem writeClients_written (flow : Flow) (cs : List (PlacingClient × ℕ))
    (h : msg.Written out buffer) (hsize : buffer.length < 65536)
    (hlt : out.length < buffer.length) :
    ∃ msg' out', (cs.map fun c => (c.1.client, c.2)).foldlM (writeUpdateMsgClient flow) msg =
      some msg' ∧ msg'.Written out' buffer ∧ out'.length < buffer.length := by
  induction cs generalizing msg out with
  | nil => exact ⟨msg, out, rfl, h, hlt⟩
  | cons c cs ih =>
    obtain ⟨placed, msg₁, out₁, hplace, hwritten₁, hlt₁⟩ :=
      h.place hsize hlt (clientHeader (c.1.client, c.2))
    obtain ⟨ok, msg₂, out₂, hproduce, hwritten₂, hlt₂⟩ :=
      (c.1.produce flow).run_written hwritten₁ hsize hlt₁
    obtain ⟨msg', out', hrest, hend⟩ := ih hwritten₂ hlt₂
    refine ⟨msg', out', ?_, hend⟩
    have hclient : writeUpdateMsgClient flow msg (c.1.client, c.2) = some msg₂ := by
      rw [writeUpdateMsgClient, hplace]
      simp only [bind_eq_bind, bind_some, PlacingClient.client, hproduce]
    rw [List.map_cons, foldlM_cons, hclient]
    exact hrest

/-- The session client writes its entry, up to the last byte if it has to. -/
theorem writeSession_written (newFlow : FlowKey → Option Flow) (elapsed : Bool) (flow : Flow)
    (h : msg.Written out buffer) (hsize : buffer.length < 65536)
    (hroom : out.length + 16 ≤ buffer.length) :
    ∃ msg', writeUpdateMsgClient flow msg (streamHAClient newFlow elapsed, 0) = some msg' ∧
      msg'.Written (out ++ (sessionEntry flow).bytes) buffer := by
  have hheader : (clientHeader (streamHAClient newFlow elapsed, 0)).length = 2 := rfl
  obtain ⟨msg₁, hplace, hwritten₁⟩ := h.place_of_lt hsize
    (clientHeader (streamHAClient newFlow elapsed, 0)) (by omega)
  obtain ⟨msg₂, hproduce, hwritten₂⟩ := streamProduce_written flow hwritten₁ hsize (by
    rw [length_append, hheader, sessionContentSize]
    omega)
  refine ⟨msg₂, ?_, ?_⟩
  · rw [writeUpdateMsgClient, hplace]
    simp only [bind_eq_bind, bind_some, streamHAClient, hproduce]
  · rw [append_assoc] at hwritten₂
    have hlen : (sessionContentCodec.encode (sessionContent flow)).length = 14 :=
      sessionContentCodec.length_encode _
    unfold sessionEntry Entry.bytes
    exact hwritten₂

theorem store_written (hcontent : msg.content = out ++ buffer.drop out.length) (data : List Byte)
    (offset : ℕ) (hoffset : out.length = offset) (hle : offset + data.length ≤ buffer.length) :
    ∃ msg', msg.store offset data = some msg' ∧
      msg'.content = out ++ data ++ buffer.drop (out ++ data).length := by
  subst hoffset
  refine ⟨⟨_, msg.cursor⟩, ?_, rfl⟩
  rw [store, hcontent, write_drop data hle]
  rfl

theorem length_keyBytes (key : FlowKey) :
    (keyBytes key).length = 1 + if isIp6Key key then keySizeIp6 else keySizeIp4 := by
  unfold keyBytes
  split <;> simp <;> rfl

/-- The type of the key ends the header, and the cursor is set behind it. -/
theorem storeKeyType_written (hcontent : msg.content = out ++ buffer.drop out.length)
    (hout : out.length = keyTypeOffset) (hle : headerSize ≤ buffer.length) (keyType : Byte) :
    ∃ msg', msg.store keyTypeOffset [keyType] = some msg' ∧
      HAMessage.Written { msg' with cursor := headerSize } (out ++ [keyType]) buffer := by
  have hlen : (out ++ [keyType]).length = headerSize := by
    rw [length_append, hout]
    rfl
  obtain ⟨msg', hstore, hcontent'⟩ := store_written hcontent [keyType] _ hout hle
  exact ⟨msg', hstore, hcontent', hlen.symm, hlen ▸ hle⟩

theorem writeFlowKey_written (key : FlowKey)
    (hcontent : msg.content = out ++ buffer.drop out.length)
    (hout : out.length = keyTypeOffset)
    (hle : (out ++ keyBytes key).length ≤ buffer.length) :
    ∃ msg', writeFlowKey key msg = some msg' ∧ msg'.Written (out ++ keyBytes key) buffer := by
  have hheader : headerSize ≤ buffer.length := by
    rw [length_append, length_keyBytes, hout] at hle
    simp only [keyTypeOffset, headerSize] at hle ⊢
    omega
  unfold writeFlowKey
  unfold keyBytes at hle ⊢
  split_ifs at hle ⊢ with h6
  · obtain ⟨msg₁, hstore, hwritten₁⟩ := storeKeyType_written hcontent hout hheader keyTypeIp6
    rw [append_cons, length_append] at hle
    obtain ⟨msg', hwrite, hwritten⟩ := hwritten₁.write _ hle
    rw [append_cons]
    exact ⟨msg', by rw [hstore]; exact hwrite, hwritten⟩
  · obtain ⟨msg₁, hstore, hwritten₁⟩ := storeKeyType_written hcontent hout hheader keyTypeIp4
    rw [append_cons] at hle ⊢
    rw [← append_assoc, ← append_assoc] at hle ⊢
    rw [length_append] at hle
    have hle₃ := Nat.le_trans (Nat.le_add_right _ _) hle
    rw [length_append] at hle₃
    have hle₂ := Nat.le_trans (Nat.le_add_right _ _) hle₃
    rw [length_append] at hle₂
    obtain ⟨msg₂, hlow, hwritten₂⟩ := hwritten₁.write _ hle₂
    obtain ⟨msg₃, hhigh, hwritten₃⟩ := hwritten₂.write _ hle₃
    obtain ⟨msg', hrest, hwritten⟩ := hwritten₃.write _ hle
    refine ⟨msg', ?_, hwritten⟩
    rw [hstore]
    simp only [bind_eq_bind, bind_some, hlow, hhigh, hrest]

theorem writeMsgHeader_written (buffer : List Byte) (flow : Flow) (contentLength : ℕ)
    (hle : (messageHead contentLength flow.key).length ≤ buffer.length) :
    ∃ msg', writeMsgHeader flow haUpdateEvent contentLength ⟨buffer, 0⟩ = some msg' ∧
      msg'.Written (messageHead contentLength flow.key) buffer := by
  have hlen : (word16.encode (ofNat 16 contentLength)).length = 2 :=
    word16.length_encode _
  have hroom : 4 ≤ buffer.length := by
    rw [messageHead, length_append, length_append, hlen] at hle
    exact Nat.le_trans (Nat.le_add_right 4 _) hle
  have hempty : (⟨buffer, 0⟩ : HAMessage).content = [] ++ buffer.drop ([] : List Byte).length := rfl
  obtain ⟨msg₁, hevent, hcontent₁⟩ := store_written hempty [haUpdateEvent] 0 rfl
    (Nat.le_trans (by decide) hroom)
  obtain ⟨msg₂, hversion, hcontent₂⟩ := store_written hcontent₁ [haMessageVersion] 1 rfl
    (Nat.le_trans (by decide) hroom)
  obtain ⟨msg₃, htotal, hcontent₃⟩ := store_written hcontent₂
    (word16.encode (ofNat 16 contentLength)) 2 rfl (hlen.symm ▸ hroom)
  obtain ⟨msg', hkey, hwritten⟩ := writeFlowKey_written flow.key hcontent₃
    (by rw [length_append, hlen]; rfl) hle
  refine ⟨msg', ?_, hwritten⟩
  unfold writeMsgHeader
  simp only [bind_eq_bind, bind_some, hevent, hversion, htotal, hkey]
end Writing

/-! ## The message that is sent -/

section Message
variable (newFlow : FlowKey → Option Flow) (elapsed : Bool) (others : List PlacingClient)
  (hle : others.length ≤ 16) (flow : Flow)

theorem active_placingMap :
    (placingMap newFlow elapsed others hle).active flow = (streamHAClient newFlow elapsed, 0) ::
        (pendingClients others flow).map fun c => (c.1.client, c.2) := by
  unfold ClientMap.active ClientMap.all placingMap pendingClients
  rw [List.zipIdx_cons, List.filter_cons_of_pos (by simp), List.zipIdx_map, List.filter_map]
  congr 2
  refine filter_congr fun c hc => ?_
  have hpos : 1 ≤ c.2 := le_snd_of_mem_zipIdx hc
  simp [Nat.ne_of_gt hpos]

theorem length_bytes (e : Entry) : e.bytes.length = 2 + e.content.length := by
  rw [Entry.bytes, length_append]
  rfl

theorem length_contentBytes :
    (contentBytes others flow).length =
      16 + ((pendingClients others flow).map fun c => c.1.length.toNat + 2).sum := by
  have hsession : (sessionEntry flow).bytes.length = 16 := by
    rw [length_bytes]
    exact congrArg (2 + ·) (sessionContentCodec.length_encode _)
  rw [contentBytes, entries, List.length_flatMap, List.map_cons, List.sum_cons, hsession,
    List.map_map]
  refine congrArg (fun l : List ℕ => 16 + l.sum) (map_congr_left fun c _ => ?_)
  exact congrArg (· + 2) (c.1.exact flow)

theorem calculateUpdateMsgContentLength_eq :
    calculateUpdateMsgContentLength (placingMap newFlow elapsed others hle) flow =
      (contentBytes others flow).length := by
  have hsum (cs : List (FlowHAClient × ℕ)) (n : ℕ) :
      cs.foldl (fun length c => length + (c.1.length.toNat + clientHeaderSize)) n =
        n + (cs.map fun c => c.1.length.toNat + 2).sum := by
    induction cs generalizing n with
    | nil => rfl
    | cons c cs ih =>
      rw [List.foldl_cons, ih, List.map_cons, List.sum_cons, Nat.add_assoc]
      rfl
  rw [calculateUpdateMsgContentLength, active_placingMap, hsum, length_contentBytes, List.map_cons,
    List.sum_cons, List.map_map, Nat.zero_add]
  rfl

theorem length_messageHead (contentLength : ℕ) (key : FlowKey) :
    (messageHead contentLength key).length =
      headerSize + if isIp6Key key then keySizeIp6 else keySizeIp4 := by
  rw [messageHead, length_append, length_append, length_keyBytes, word16.length_encode]
  rw [← Nat.add_assoc]
  rfl

theorem length_pendingClients_le : (pendingClients others flow).length ≤ others.length := by
  refine Nat.le_trans (length_filter_le _ _) ?_
  rw [length_zipIdx]

include hle in
theorem length_contentBytes_le : (contentBytes others flow).length ≤ 16 + 16 * 257 := by
  rw [length_contentBytes]
  refine Nat.add_le_add_left (Nat.le_trans (sum_le_card_nsmul _ 257 ?_) ?_) 16
  · intro n hn
    obtain ⟨c, -, rfl⟩ := mem_map.mp hn
    have := c.1.length.isLt
    omega
  · rw [length_map, smul_eq_mul]
    exact Nat.mul_le_mul_right _ (Nat.le_trans (length_pendingClients_le others flow) hle)

/-- The bytes of a message. -/
abbrev messageBytes := headBytes others flow ++ contentBytes others flow

theorem length_message :
    calculateMsgHeaderLength flow +
        calculateUpdateMsgContentLength (placingMap newFlow elapsed others hle) flow =
      (messageBytes others flow).length := by
  rw [calculateUpdateMsgContentLength_eq, length_append, headBytes, length_messageHead]
  rfl

include hle in
theorem length_message_lt : (messageBytes others flow).length < 65536 := by
  have hcontent := length_contentBytes_le others hle flow
  rw [length_append, headBytes, length_messageHead]
  unfold headerSize keySizeIp6 keySizeIp4
  split_ifs <;> omega

variable (alloc : Allocator)

/-- The header and the entry of the session client have been written when the loop over the other
clients starts. -/
theorem updateMessage_eq :
    ∃ msg, updateMessage (placingMap newFlow elapsed others hle) alloc flow =
        ((pendingClients others flow).map fun c => (c.1.client, c.2)).foldlM
          (writeUpdateMsgClient flow) msg ∧
      msg.Written (headBytes others flow ++ (sessionEntry flow).bytes)
        (alloc.bytes (messageBytes others flow).length) := by
  have hlt := length_message_lt others hle flow
  have hcontent := length_contentBytes others flow
  rw [length_append] at hlt
  obtain ⟨msg₁, hheader, hwritten₁⟩ := writeMsgHeader_written
    (alloc.bytes (messageBytes others flow).length) flow
    (contentBytes others flow).length (by
      rw [alloc.length_bytes, length_append]
      exact Nat.le_add_right _ _)
  obtain ⟨msg₂, hsession, hwritten₂⟩ := writeSession_written newFlow elapsed flow hwritten₁
    (by rw [alloc.length_bytes, length_append]; exact hlt)
    (by
      rw [alloc.length_bytes, length_append]
      exact Nat.add_le_add_left (hcontent ▸ Nat.le_add_right _ _) _)
  refine ⟨msg₂, ?_, hwritten₂⟩
  unfold updateMessage writeUpdateMsgContent
  dsimp only
  rw [length_message, calculateUpdateMsgContentLength_eq, hheader, active_placingMap]
  simp only [bind_eq_bind, bind_some, foldlM_cons, hsession]

/-- Without pending clients, the message is as it should be. -/
theorem updateMessage_of_nil (hpending : pendingClients others flow = []) :
    ∃ msg, updateMessage (placingMap newFlow elapsed others hle) alloc flow = some msg ∧
      msg.content = messageBytes others flow := by
  obtain ⟨msg, hmsg, hwritten⟩ := updateMessage_eq newFlow elapsed others hle flow alloc
  rw [hpending] at hmsg
  refine ⟨msg, hmsg, ?_⟩
  have hbytes : contentBytes others flow = (sessionEntry flow).bytes := by
    rw [contentBytes, entries, hpending, map_nil, flatMap_cons, flatMap_nil, append_nil]
  rw [hwritten.content, ← hbytes, drop_eq_nil_of_le (Nat.le_of_eq (alloc.length_bytes _)),
    append_nil]

/-- With pending clients, the last byte is that of the new message. -/
theorem updateMessage_last (hpending : pendingClients others flow ≠ []) :
    ∃ msg n, updateMessage (placingMap newFlow elapsed others hle) alloc flow = some msg ∧
      n + 1 = (messageBytes others flow).length ∧
      msg.content[n]? = (alloc.bytes (n + 1))[n]? := by
  obtain ⟨msg₁, hmsg₁, hwritten₁⟩ := updateMessage_eq newFlow elapsed others hle flow alloc
  obtain ⟨c, cs, hcs⟩ := exists_cons_of_ne_nil hpending
  have hcontent := length_contentBytes others flow
  rw [hcs, List.map_cons, List.sum_cons] at hcontent
  have hsession : (sessionEntry flow).bytes.length = 16 := by
    rw [length_bytes]
    exact congrArg (2 + ·) (sessionContentCodec.length_encode _)
  obtain ⟨msg, out, hmsg, hwritten, hlt⟩ := writeClients_written flow (pendingClients others flow)
    hwritten₁ (by rw [alloc.length_bytes]; exact length_message_lt others hle flow)
    (by
      rw [alloc.length_bytes, length_append, length_append, hsession, hcontent]
      omega)
  rw [alloc.length_bytes] at hlt
  obtain ⟨n, hn⟩ : ∃ n, n + 1 = (messageBytes others flow).length :=
    ⟨_, Nat.sub_add_cancel (Nat.lt_of_le_of_lt (Nat.zero_le _) hlt)⟩
  refine ⟨msg, n, hmsg₁.trans hmsg, hn, ?_⟩
  have hle' : out.length ≤ n := by omega
  rw [hwritten.content, getElem?_append_right hle', getElem?_drop, Nat.add_sub_cancel' hle', hn]
end Message

/-! ## The message that is received -/

section Receipt

/-- A key whose addresses are mapped is made from their last words. -/
theorem makeKey_of_not_ip6 {key : FlowKey} (h : ¬isIp6Key key = true) :
    makeKey ![0, 0, htonl 0xFFFF, key.ipL 3] ![0, 0, htonl 0xFFFF, key.ipH 3]
      (keyRest key) = key := by
  unfold isIp6Key at h
  simp only [ne_eq, Bool.or_eq_true, decide_eq_true_eq, not_or, not_not] at h
  obtain ⟨⟨⟨⟨⟨hl0, hl1⟩, hl2⟩, hh0⟩, hh1⟩, hh2⟩ := h
  have hl : (![0, 0, htonl 0xFFFF, key.ipL 3] : Fin 4 → BitVec 32) = key.ipL :=
    words_ext.mpr ⟨hl0.symm, hl1.symm, hl2.symm, rfl⟩
  have hh : (![0, 0, htonl 0xFFFF, key.ipH 3] : Fin 4 → BitVec 32) = key.ipH :=
    words_ext.mpr ⟨hh0.symm, hh1.symm, hh2.symm, rfl⟩
  rw [hl, hh]
  rfl

theorem readFlowKey_keyBytes {pre : List Byte} (hpre : pre.length = keyTypeOffset) (key : FlowKey)
    (rest : List Byte) :
    readFlowKey ⟨pre ++ keyBytes key ++ rest, 0⟩ =
      some (key, ⟨pre ++ keyBytes key ++ rest, (pre ++ keyBytes key).length⟩) := by
  have hheader (t : Byte) : (pre ++ [t]).length = headerSize := by
    rw [length_append, hpre]
    rfl
  have htype (t : Byte) (bytes : List Byte) :
      Buffer.read (pre ++ t :: bytes ++ rest) keyTypeOffset 1 = some [t] := by
    rw [append_cons, append_assoc, ← hpre]
    exact Buffer.read_append pre [t] _
  unfold readFlowKey keyBytes
  split_ifs with h6
  · have hsize : (keyCodec.encode key).length = keySizeIp6 := keyCodec.length_encode key
    have hcontent : pre ++ keyTypeIp6 :: keyCodec.encode key ++ rest =
        pre ++ [keyTypeIp6] ++ keyCodec.encode key ++ rest := by simp
    have hread := read_at hcontent (hheader _).symm hsize
    rw [htype]
    simp only [bind_eq_bind, bind_some, if_true, hread, decode_encode]
    rw [append_cons, length_append, hheader, hsize]
  · have hlow : (word32.encode (key.ipL 3)).length = 4 := word32.length_encode _
    have hhigh : (word32.encode (key.ipH 3)).length = 4 := word32.length_encode _
    have hrest : (keyRestCodec.encode (keyRest key)).length = keySizeIp4 - 8 :=
      keyRestCodec.length_encode _
    let low := word32.encode (key.ipL 3)
    let high := word32.encode (key.ipH 3)
    let last := keyRestCodec.encode (keyRest key)
    have hread₁ := read_at (show pre ++ keyTypeIp4 :: (low ++ high ++ last) ++ rest =
      pre ++ [keyTypeIp4] ++ low ++ (high ++ last ++ rest) by simp) (hheader _).symm hlow
    have hread₂ := read_at (show pre ++ keyTypeIp4 :: (low ++ high ++ last) ++ rest =
      pre ++ [keyTypeIp4] ++ low ++ high ++ (last ++ rest) by simp)
      (by rw [length_append, hheader, hlow]) hhigh
    have hread₃ := read_at (show pre ++ keyTypeIp4 :: (low ++ high ++ last) ++ rest =
      pre ++ [keyTypeIp4] ++ low ++ high ++ last ++ rest by simp)
      (by rw [length_append, length_append, hheader, hlow, hhigh]) hrest
    have hne : [keyTypeIp4] ≠ [keyTypeIp6] := by decide
    rw [htype]
    simp only [bind_eq_bind, bind_some, if_neg hne, if_true]
    rw [hread₁]
    simp only [bind_some, low, decode_encode]
    rw [hread₂]
    simp only [bind_some, high, decode_encode]
    rw [hread₃]
    simp only [bind_some, last, decode_encode, makeKey_of_not_ip6 h6]
    simp only [length_append, length_cons, hlow, hhigh, hrest, hpre]
    rfl

theorem readFlowKey_message (contentLength : ℕ) (key : FlowKey) (rest : List Byte) :
    readFlowKey ⟨messageHead contentLength key ++ rest, 0⟩ =
      some (key, ⟨messageHead contentLength key ++ rest, (messageHead contentLength key).length⟩) :=
  readFlowKey_keyBytes (by rw [length_append, word16.length_encode]; rfl) key rest

variable (clients : ClientMap) (key : FlowKey) {before : List Byte}

theorem consumeClients_entry {rest : List Byte} {e : Entry} {c : FlowHAClient}
    (hc : clients.all[e.client]? = some c) (hclient : e.client < 256)
    (hcontent : e.content.length < 256)
    (htotal : (before ++ e.bytes ++ rest).length < 65536) {flow flow' : Option Flow}
    (hconsume : c.consume flow key ⟨before ++ e.bytes ++ rest, before.length + 2⟩ =
      some (true, flow', ⟨before ++ e.bytes ++ rest, (before ++ e.bytes).length⟩)) (fuel : ℕ) :
    consumeClients clients key (fuel + 1) flow ⟨before ++ e.bytes ++ rest, before.length⟩ =
      (consumeClients clients key fuel flow'
        ⟨before ++ e.bytes ++ rest, (before ++ e.bytes).length⟩).map fun r =>
          (r.1, r.2.1, ⟨e.client, key, before.length + 2⟩ :: r.2.2) := by
  have hlength : (before ++ e.bytes ++ rest).length =
      before.length + (2 + e.content.length) + rest.length := by
    rw [length_append, length_append, length_bytes]
  have hread := read_at (show before ++ e.bytes ++ rest =
    before ++ [ofNat 8 e.client, ofNat 8 e.content.length] ++ (e.content ++ rest) by
      simp [Entry.bytes]) rfl (show _ = clientHeaderSize from rfl)
  have hmore : ¬(before ++ e.bytes ++ rest).length % 65536 ≤ before.length := by
    rw [Nat.mod_eq_of_lt htotal]
    omega
  have hheader : ¬(before ++ e.bytes ++ rest).length % 65536 - before.length <
    clientHeaderSize := by
    rw [Nat.mod_eq_of_lt htotal, clientHeaderSize]
    omega
  have hlong : ¬(((before ++ e.bytes ++ rest).length % 65536 : ℕ) : ℤ) -
      ((before.length + clientHeaderSize : ℕ) : ℤ) < e.content.length := by
    rw [Nat.mod_eq_of_lt htotal, clientHeaderSize]
    omega
  rw [consumeClients]
  simp only [contentLength]
  rw [if_neg hmore, if_neg hheader, hread]
  simp only [bind_eq_bind, bind_some, getD_cons_zero, getD_cons_succ,
    BitVec.toNat_ofNat, Nat.mod_eq_of_lt hclient, Nat.mod_eq_of_lt hcontent, hc]
  rw [if_neg hlong]
  -- Behind its header, the client is called at its content.
  rw [show clientHeaderSize = 2 from rfl, hconsume]
  simp only [bind_some, Bool.not_true, Bool.false_eq_true, if_false]
  cases consumeClients clients key fuel flow'
    ⟨before ++ e.bytes ++ rest, (before ++ e.bytes).length⟩ <;> rfl

/-- The client of an entry reads its content, wherever it is. -/
def Entry.Accepted (clients : ClientMap) (key : FlowKey) (e : Entry) : Prop :=
  e.client < 256 ∧ e.content.length < 256 ∧ ∃ c, clients.all[e.client]? = some c ∧
    ∀ flow msg, msg.cursor + e.content.length ≤ msg.content.length →
      ∃ flow', c.consume flow key msg =
        some (true, flow', { msg with cursor := msg.cursor + e.content.length })

theorem consumeClients_entries {es : List Entry} (flow : Option Flow) {fuel : ℕ}
    (hfuel : es.length < fuel) (htotal : (before ++ es.flatMap Entry.bytes).length < 65536)
    (hes : ∀ e ∈ es, e.Accepted clients key) :
    ∃ flow', consumeClients clients key fuel flow ⟨before ++ es.flatMap Entry.bytes,
      before.length⟩ =
      some (.complete, flow', calls key before.length es) := by
  induction es generalizing before flow fuel with
  | nil =>
    obtain ⟨fuel, rfl⟩ : ∃ k, fuel = k + 1 := ⟨fuel - 1, by simp at hfuel; omega⟩
    refine ⟨flow, ?_⟩
    rw [flatMap_nil, append_nil] at htotal ⊢
    rw [consumeClients, if_pos]
    · rfl
    · exact Nat.mod_le _ _
  | cons e es ih =>
    obtain ⟨fuel, rfl⟩ : ∃ k, fuel = k + 1 := ⟨fuel - 1, by simp at hfuel; omega⟩
    obtain ⟨hclient, hcontent, c, hc, haccept⟩ := hes e mem_cons_self
    rw [flatMap_cons, ← append_assoc] at htotal ⊢
    obtain ⟨flow₁, hconsume⟩ := haccept flow
      ⟨before ++ e.bytes ++ es.flatMap Entry.bytes, before.length + 2⟩ (by
        rw [length_append, length_append, length_bytes]
        dsimp only
        omega)
    have hcursor : before.length + 2 + e.content.length = (before ++ e.bytes).length := by
      rw [length_append, length_bytes, Nat.add_assoc]
    rw [hcursor] at hconsume
    obtain ⟨flow', hrest⟩ := ih flow₁ (Nat.lt_of_succ_lt_succ hfuel) htotal fun e' he' =>
      hes e' (mem_cons_of_mem e he')
    refine ⟨flow', ?_⟩
    rw [consumeClients_entry clients key hc hclient hcontent htotal hconsume, hrest, calls,
      length_append]
    rfl

variable {newFlow : FlowKey → Option Flow} {elapsed : Bool} {others : List PlacingClient}
  {hle : others.length ≤ 16} {flow : Flow}

theorem accepted_pending (haccept : ∀ c ∈ others, c.Accepts) {c : PlacingClient × ℕ}
    (hc : c ∈ pendingClients others flow) :
    Entry.Accepted (placingMap newFlow elapsed others hle) key
      ⟨c.2, (c.1.produce flow).content⟩ := by
  obtain ⟨hle₁, hget⟩ := mem_zipIdx_iff_le_and_getElem?_sub.mp (mem_filter.mp hc).1
  have hlt : c.2 - 1 < others.length := (List.getElem?_eq_some_iff.mp hget).1
  have hsize := c.1.exact flow
  refine ⟨by dsimp only; omega, ?_, c.1.client, ?_, ?_⟩
  · rw [hsize]
    exact c.1.length.isLt
  · obtain ⟨i, hi⟩ : ∃ i, c.2 = i + 1 := ⟨c.2 - 1, (Nat.sub_add_cancel hle₁).symm⟩
    rw [hi, Nat.add_sub_cancel] at hget
    simp [ClientMap.all, placingMap, hi, hget]
  · intro f msg hmsg
    rw [hsize] at hmsg ⊢
    exact haccept c.1 (mem_of_getElem? hget) f key msg hmsg

theorem streamConsume_entry {before rest : List Byte} {f : Option Flow} {peer : Flow}
    (hpeer : sessionFlow newFlow key (sessionContent flow) f = some peer)
    (htotal : (before ++ (sessionEntry flow).bytes ++ rest).length < 65536) :
    streamConsume newFlow f key ⟨before ++ (sessionEntry flow).bytes ++ rest, before.length + 2⟩ =
      some (true, some (takeOver newFlow (sessionContent flow) peer),
        ⟨before ++ (sessionEntry flow).bytes ++ rest,
          (before ++ (sessionEntry flow).bytes).length⟩) := by
  have hsize : (sessionContentCodec.encode (sessionContent flow)).length = 14 :=
    sessionContentCodec.length_encode _
  have hbytes : before ++ (sessionEntry flow).bytes =
      before ++ [0, 14] ++ sessionContentCodec.encode (sessionContent flow) := by
    rw [sessionEntry, Entry.bytes, hsize, append_assoc]
    rfl
  rw [hbytes] at htotal ⊢
  have hconsume := streamConsume_content newFlow f key (before ++ [0, 14]) rest
    (sessionContent flow)
    htotal
  rw [hpeer] at hconsume
  rw [length_append, hsize]
  rw [length_append] at hconsume ⊢
  exact hconsume

/-- A message as it should be calls the session client and each pending client. -/
theorem consumeReceiveMessage_message (getFlow : FlowKey → Option Flow)
    (hsession : sessionFlow newFlow flow.key (sessionContent flow) (getFlow flow.key) ≠ none)
    (haccept : ∀ c ∈ others, c.Accepts) :
    ∃ flow', consumeReceiveMessage (placingMap newFlow elapsed others hle) getFlow
        (messageBytes others flow) =
      some (some (.complete, flow',
        calls flow.key (headBytes others flow).length (entries others flow))) := by
  obtain ⟨peer, hpeer⟩ := ne_none_iff_exists'.mp hsession
  have htotal := length_message_lt others hle flow
  let rest := (pendingClients others flow).map fun c => Entry.mk c.2 (c.1.produce flow).content
  have hcontent : messageBytes others flow =
      headBytes others flow ++ (sessionEntry flow).bytes ++ rest.flatMap Entry.bytes := by
    rw [messageBytes, contentBytes, entries, flatMap_cons, append_assoc]
  have hevent : Buffer.read (messageBytes others flow) 0 1 =
      some [haUpdateEvent] := Buffer.read_append [] [haUpdateEvent] _
  have hversion : Buffer.read (messageBytes others flow) 1 1 =
      some [haMessageVersion] := Buffer.read_append [haUpdateEvent] [haMessageVersion] _
  have hkey : readFlowKey ⟨messageBytes others flow, 0⟩ =
      some (flow.key, ⟨messageBytes others flow,
        (headBytes others flow).length⟩) := readFlowKey_message _ flow.key _
  have hfuel : rest.length < (messageBytes others flow).length := by
    have hpending := length_pendingClients_le others flow
    have hbytes := length_contentBytes others flow
    rw [length_map, length_append, headBytes, length_messageHead, headerSize]
    omega
  rw [hcontent] at htotal
  -- The session client is called first, and finds or creates the flow.
  have hsize : (sessionEntry flow).content.length < 256 := by
    rw [sessionEntry, sessionContentCodec.length_encode]
    decide
  have hentry := consumeClients_entry (placingMap newFlow elapsed others hle) flow.key rfl
    (Nat.zero_lt_succ _) hsize htotal (streamConsume_entry flow.key hpeer htotal)
    (messageBytes others flow).length
  obtain ⟨flow', hrest⟩ := consumeClients_entries (placingMap newFlow elapsed others hle) flow.key
    (some (takeOver newFlow (sessionContent flow) peer)) hfuel htotal fun e he => by
      obtain ⟨c, hc, rfl⟩ := mem_map.mp he
      exact accepted_pending flow.key haccept hc
  refine ⟨flow', ?_⟩
  unfold consumeReceiveMessage consumeReceiveUpdateMessage
  simp only [bind_eq_bind, bind_some, ne_eq, hkey]
  rw [hcontent] at hentry hrest ⊢
  rw [hentry, hrest, entries, calls, length_append]
  rfl
end Receipt

/-! ## Whole updates -/

/-- `process_update` sends a message. -/
def Sends (flow : Flow) : Prop :=
  (streamIsUpdateRequired elapsed flow).1 = true ∨
    (updateFlags flow).haState.checkPending 0xffff = true ∧
      (updateFlags flow).haState.checkAny FlowHAState.new = false

variable (flow : Flow)

theorem streamIsUpdateRequired_snd :
    (streamIsUpdateRequired elapsed flow).2 = updateFlags flow := by
  unfold streamIsUpdateRequired
  dsimp only
  split_ifs <;> rfl

theorem pending_updateFlags : (updateFlags flow).haState.pending = flow.haState.pending := by
  unfold updateFlags FlowHAState.add FlowHAState.clear
  dsimp only
  split_ifs <;> rfl

theorem pendingClients_eq_nil_iff :
    pendingClients others flow = [] ↔
      ∀ i < others.length, flow.haState.checkPending (1 <<< i) = false := by
  unfold pendingClients
  rw [filter_eq_nil_iff]
  constructor
  · intro h i hi
    have hmem : (others.get ⟨i, hi⟩, i + 1) ∈ others.zipIdx 1 :=
      mem_zipIdx_iff_le_and_getElem?_sub.mpr ⟨Nat.le_add_left 1 i, by simp [hi]⟩
    exact Bool.eq_false_iff.mpr (h _ hmem)
  · intro h c hc
    obtain ⟨hle₁, hget⟩ := mem_zipIdx_iff_le_and_getElem?_sub.mp hc
    rw [h (c.2 - 1) (List.getElem?_eq_some_iff.mp hget).1]
    exact Bool.false_ne_true

theorem processUpdate_of_sends {elapsed : Bool} (others : List PlacingClient)
    (hle : others.length ≤ 16) {flow : Flow} (h : Sends elapsed flow) (alloc : Allocator) :
    processUpdate (placingMap newFlow elapsed others hle) alloc flow =
      (updateMessage (placingMap newFlow elapsed others hle) alloc (updateFlags flow)).map
        fun msg => (some msg.content, sentFlow (updateFlags flow)) := by
  have hgate : ¬((!(streamIsUpdateRequired elapsed flow).1 &&
      (!(updateFlags flow).haState.checkPending 0xffff ||
        (updateFlags flow).haState.checkAny FlowHAState.new)) = true) := by
    rcases h with h | ⟨hpending, hnew⟩
    · rw [h]
      exact Bool.false_ne_true
    · rw [hpending, hnew, Bool.not_true, Bool.or_false, Bool.and_false]
      exact Bool.false_ne_true
  unfold processUpdate
  simp only [placingMap, streamHAClient, streamIsUpdateRequired_snd]
  rw [if_neg hgate]
  cases updateMessage _ alloc (updateFlags flow) <;> rfl

/-- Updates arrive as they should, whatever the bytes of a new message are, if and only if no client
is pending. -/
theorem processUpdate_roundTrip_iff (newFlow : FlowKey → Option Flow) (elapsed : Bool)
    (others : List PlacingClient) (hle : others.length ≤ 16) (flow : Flow)
    (hsends : Sends elapsed flow) :
    (∀ alloc : Allocator, ∃ message flow',
      processUpdate (placingMap newFlow elapsed others hle) alloc flow =
        some (some message, flow') ∧
      RoundTrip newFlow elapsed others hle (updateFlags flow) message) ↔
    ∀ i < others.length, flow.haState.checkPending (1 <<< i) = false := by
  have hcheck (handle : BitVec 16) :
      flow.haState.checkPending handle = (updateFlags flow).haState.checkPending handle := by
    unfold FlowHAState.checkPending
    rw [pending_updateFlags]
  simp only [hcheck, ← pendingClients_eq_nil_iff]
  constructor
  · intro h
    by_contra hpending
    -- Two messages that start with different bytes end in different bytes.
    have hlast (b : Byte) : (headBytes others (updateFlags flow) ++
        contentBytes others (updateFlags flow)).getLast? = some b := by
      let alloc : Allocator := ⟨fun n => List.replicate n b, fun _ => length_replicate⟩
      obtain ⟨message, flow', hprocess, hroundTrip⟩ := h alloc
      obtain ⟨msg, n, hmsg, hn, hend⟩ :=
        updateMessage_last newFlow elapsed others hle (updateFlags flow) alloc hpending
      rw [processUpdate_of_sends newFlow others hle hsends alloc, hmsg] at hprocess
      obtain rfl : msg.content = message := (Prod.mk.inj (some.inj hprocess)).1 |> some.inj
      rw [hroundTrip.message_eq] at hend
      rw [getLast?_eq_getElem?, ← hn, Nat.add_sub_cancel, hend]
      simp [alloc]
    exact absurd (some.inj ((hlast 0).symm.trans (hlast 1))) (by decide)
  · intro hpending alloc
    have hprocess := processUpdate_of_sends newFlow others hle hsends alloc
    obtain ⟨msg, hmsg, hcontent⟩ :=
      updateMessage_of_nil newFlow elapsed others hle (updateFlags flow) alloc hpending
    rw [hmsg] at hprocess
    refine ⟨msg.content, _, hprocess, hcontent, fun getFlow hsession haccept => ?_⟩
    rw [hcontent]
    exact consumeReceiveMessage_message getFlow hsession haccept

/-- A flow that has just been established. -/
def establishedFlow (pending : BitVec 16) : Flow :=
  { flow6 with
    haState := ⟨0, pending⟩
    ssnState := { flow6.ssnState with sessionFlags := 0x00000004 } }

def zeroAllocator : Allocator := ⟨fun n => List.replicate n 0, fun _ => length_replicate⟩

/-- A client with one byte of content. -/
def oneByteClient : PlacingClient where
  length := 1
  produce _ := .place [7] (by decide) .ret
  exact _ := rfl
  consume flow _ msg := some (true, flow, { msg with cursor := msg.cursor + 1 })

/-- The other client has nothing to say. -/
theorem processUpdate_roundTrip_session :
    ∃ message flow',
      processUpdate (placingMap (fun key => some (emptyFlow key)) true [oneByteClient] (by decide))
        zeroAllocator (establishedFlow 0) = some (some message, flow') ∧
      RoundTrip (fun key => some (emptyFlow key)) true [oneByteClient] (by decide)
        (updateFlags (establishedFlow 0)) message := by
  refine (processUpdate_roundTrip_iff (fun key => some (emptyFlow key)) true [oneByteClient]
    (by decide) (establishedFlow 0) (.inl (by decide))).mpr (fun i hi => ?_) zeroAllocator
  obtain rfl : i = 0 := Nat.lt_one_iff.mp hi
  decide

/-- The byte of the only pending client is missing: its place in the message is not written. -/
theorem processUpdate_oneByte :
    ((processUpdate (placingMap (fun key => some (emptyFlow key)) true [oneByteClient] (by decide))
        zeroAllocator (establishedFlow 1)).map
          fun r => r.1.map fun message => message.drop 69) = some (some [1, 1, 0]) ∧
      (headBytes [oneByteClient] (updateFlags (establishedFlow 1)) ++
        contentBytes [oneByteClient] (updateFlags (establishedFlow 1))).drop 69 = [1, 1, 7] := by
  decide +kernel
end Snort.Ha
