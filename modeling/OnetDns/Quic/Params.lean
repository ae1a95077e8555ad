import OnetDns.Quic.FrameCodec

/-!
# Transport parameters on the wire

`TransportParams::encode` and `decode` of `onetdns-quic`. A parameter is its number and its value with
the length before it. Some limits of the peer are cut when they are read.
-/
namespace OnetDns.Quic.Codec
open Transport List Option

namespace ParamId

def originalDestinationConnectionId : ℕ := 0x00
def maxIdleTimeout : ℕ := 0x01
def statelessResetToken : ℕ := 0x02
def maxUdpPayloadSize : ℕ := 0x03
def initialMaxData : ℕ := 0x04
def initialMaxStreamDataBidiLocal : ℕ := 0x05
def initialMaxStreamDataBidiRemote : ℕ := 0x06
def initialMaxStreamDataUni : ℕ := 0x07
def initialMaxStreamsBidi : ℕ := 0x08
def initialMaxStreamsUni : ℕ := 0x09
def ackDelayExponent : ℕ := 0x0a
def maxAckDelay : ℕ := 0x0b
def disableActiveMigration : ℕ := 0x0c
def activeConnectionIdLimit : ℕ := 0x0e
def initialSourceConnectionId : ℕ := 0x0f
def retrySourceConnectionId : ℕ := 0x10

end ParamId

def maxCidLen : ℕ := 20
def maxStreams : ℕ := 2 ^ 20
def maxFlowCredit : ℕ := 2 ^ 40
def maxStreamsLimit : ℕ := 2 ^ 60

/-- `TransportParams` with its `Default`. -/
structure TransportParams where
  originalDestinationConnectionId : Option Bytes := none
  initialSourceConnectionId : Option Bytes := none
  retrySourceConnectionId : Option Bytes := none
  statelessResetToken : Option (Octets 16) := none
  maxIdleTimeout : ℕ := 0
  maxUdpPayloadSize : ℕ := 65527
  initialMaxData : ℕ := 0
  initialMaxStreamDataBidiLocal : ℕ := 0
  initialMaxStreamDataBidiRemote : ℕ := 0
  initialMaxStreamDataUni : ℕ := 0
  initialMaxStreamsBidi : ℕ := 0
  initialMaxStreamsUni : ℕ := 0
  ackDelayExponent : ℕ := 3
  maxAckDelay : ℕ := 25
  activeConnectionIdLimit : ℕ := 2
  disableActiveMigration : Bool := false
  deriving DecidableEq

def putInt (pid value : ℕ) : Bytes :=
  writeVarint pid ++ writeVarint (varintLen value) ++ writeVarint value

def putBytes (pid : ℕ) (value : Bytes) : Bytes :=
  writeVarint pid ++ writeVarint value.length ++ value

namespace TransportParams

variable (tp : TransportParams)

def encode : Bytes :=
  tp.originalDestinationConnectionId.elim [] (putBytes ParamId.originalDestinationConnectionId) ++
  tp.initialSourceConnectionId.elim [] (putBytes ParamId.initialSourceConnectionId) ++
  tp.retrySourceConnectionId.elim [] (putBytes ParamId.retrySourceConnectionId) ++
  tp.statelessResetToken.elim [] (fun token => putBytes ParamId.statelessResetToken token.bytes) ++
  putInt ParamId.maxIdleTimeout tp.maxIdleTimeout ++
  putInt ParamId.maxUdpPayloadSize tp.maxUdpPayloadSize ++
  putInt ParamId.initialMaxData tp.initialMaxData ++
  putInt ParamId.initialMaxStreamDataBidiLocal tp.initialMaxStreamDataBidiLocal ++
  putInt ParamId.initialMaxStreamDataBidiRemote tp.initialMaxStreamDataBidiRemote ++
  putInt ParamId.initialMaxStreamDataUni tp.initialMaxStreamDataUni ++
  putInt ParamId.initialMaxStreamsBidi tp.initialMaxStreamsBidi ++
  putInt ParamId.initialMaxStreamsUni tp.initialMaxStreamsUni ++
  putInt ParamId.ackDelayExponent tp.ackDelayExponent ++
  putInt ParamId.maxAckDelay tp.maxAckDelay ++
  putInt ParamId.activeConnectionIdLimit tp.activeConnectionIdLimit ++
  (if tp.disableActiveMigration then
    writeVarint ParamId.disableActiveMigration ++ writeVarint 0 else [])

variable (value : Bytes)

/-- A value that is one integer and nothing else. -/
def asInt : Option ℕ := do
  let (v, consumed) ← readVarint value
  if consumed = value.length then return v else none

def cid : Option Bytes := if value.length ≤ maxCidLen then some value else none

/-- `value.try_into()`. -/
def token : Option (Octets 16) :=
  if h : value.length = 16 then some ⟨value, h⟩ else none

def inRange (low high v : ℕ) : Option ℕ := if low ≤ v ∧ v ≤ high then some v else none

/-- A limit of flow control, which is cut. -/
def credit (v : ℕ) : Option ℕ := some (min v maxFlowCredit)

def streams (v : ℕ) : Option ℕ := if maxStreamsLimit < v then none else some (min v maxStreams)

def setInt (check : ℕ → Option ℕ) (put : ℕ → TransportParams) :
    Option TransportParams := do
  let v ← asInt value
  let v ← check v
  return put v

/-- The body of the `match`. -/
def setParam (pid : ℕ) (value : Bytes) : Option TransportParams :=
  if pid = ParamId.originalDestinationConnectionId then
    (cid value).map fun c => { tp with originalDestinationConnectionId := some c }
  else if pid = ParamId.initialSourceConnectionId then
    (cid value).map fun c => { tp with initialSourceConnectionId := some c }
  else if pid = ParamId.retrySourceConnectionId then
    (cid value).map fun c => { tp with retrySourceConnectionId := some c }
  else if pid = ParamId.statelessResetToken then
    (token value).map fun t => { tp with statelessResetToken := some t }
  else if pid = ParamId.maxIdleTimeout then
    setInt value some fun v => { tp with maxIdleTimeout := v }
  else if pid = ParamId.maxUdpPayloadSize then
    setInt value (inRange 1200 65527) fun v => { tp with maxUdpPayloadSize := v }
  else if pid = ParamId.initialMaxData then
    setInt value credit fun v => { tp with initialMaxData := v }
  else if pid = ParamId.initialMaxStreamDataBidiLocal then
    setInt value credit fun v => { tp with initialMaxStreamDataBidiLocal := v }
  else if pid = ParamId.initialMaxStreamDataBidiRemote then
    setInt value credit fun v => { tp with initialMaxStreamDataBidiRemote := v }
  else if pid = ParamId.initialMaxStreamDataUni then
    setInt value credit fun v => { tp with initialMaxStreamDataUni := v }
  else if pid = ParamId.initialMaxStreamsBidi then
    setInt value streams fun v => { tp with initialMaxStreamsBidi := v }
  else if pid = ParamId.initialMaxStreamsUni then
    setInt value streams fun v => { tp with initialMaxStreamsUni := v }
  else if pid = ParamId.ackDelayExponent then
    setInt value (inRange 0 20) fun v => { tp with ackDelayExponent := v }
  else if pid = ParamId.maxAckDelay then
    setInt value (inRange 0 (2 ^ 14 - 1)) fun v => { tp with maxAckDelay := v }
  else if pid = ParamId.activeConnectionIdLimit then
    setInt value (inRange 2 (2 ^ 20)) fun v => { tp with activeConnectionIdLimit := v }
  else if pid = ParamId.disableActiveMigration then
    if value = [] then some { tp with disableActiveMigration := true } else none
  else some tp

/-- The loop of `decode`. A parameter takes more than a byte, so there are fewer rounds than
bytes. -/
def decodeParams : ℕ → TransportParams → List ℕ → Bytes → Option TransportParams
  | _, tp, _, [] => some tp
  | 0, _, _, _ :: _ => none
  | rounds + 1, tp, seen, b :: bytes => do
    let (pid, bytes) ← vi (b :: bytes)
    if pid ∈ seen then none
    else do
      let (value, bytes) ← parseData bytes
      let tp ← setParam tp pid value
      decodeParams rounds tp (pid :: seen) bytes

def decode (buf : Bytes) : Option TransportParams := decodeParams buf.length {} [] buf

/-- Every value is one that `decode` does not refuse. -/
structure Accepted (tp : TransportParams) : Prop where
  originalDestination : ∀ c ∈ tp.originalDestinationConnectionId, c.length ≤ maxCidLen
  initialSource : ∀ c ∈ tp.initialSourceConnectionId, c.length ≤ maxCidLen
  retrySource : ∀ c ∈ tp.retrySourceConnectionId, c.length ≤ maxCidLen
  idle : tp.maxIdleTimeout < varintLimit
  udp : 1200 ≤ tp.maxUdpPayloadSize ∧ tp.maxUdpPayloadSize ≤ 65527
  data : tp.initialMaxData < varintLimit
  bidiLocal : tp.initialMaxStreamDataBidiLocal < varintLimit
  bidiRemote : tp.initialMaxStreamDataBidiRemote < varintLimit
  uni : tp.initialMaxStreamDataUni < varintLimit
  streamsBidi : tp.initialMaxStreamsBidi ≤ maxStreamsLimit
  streamsUni : tp.initialMaxStreamsUni ≤ maxStreamsLimit
  exponent : tp.ackDelayExponent ≤ 20
  ackDelay : tp.maxAckDelay < 2 ^ 14
  cidLimit : 2 ≤ tp.activeConnectionIdLimit ∧ tp.activeConnectionIdLimit ≤ 2 ^ 20

def limited : TransportParams :=
  { tp with
    initialMaxData := min tp.initialMaxData maxFlowCredit
    initialMaxStreamDataBidiLocal := min tp.initialMaxStreamDataBidiLocal maxFlowCredit
    initialMaxStreamDataBidiRemote := min tp.initialMaxStreamDataBidiRemote maxFlowCredit
    initialMaxStreamDataUni := min tp.initialMaxStreamDataUni maxFlowCredit
    initialMaxStreamsBidi := min tp.initialMaxStreamsBidi maxStreams
    initialMaxStreamsUni := min tp.initialMaxStreamsUni maxStreams }

def paramBytes (param : ℕ × Bytes) : Bytes := writeVarint param.1 ++ encodeData param.2

/-- A parameter that may be left out. -/
def optional (pid : ℕ) (value : Option Bytes) : List (ℕ × Bytes) := (value.map (pid, ·)).toList

/-- A parameter that is one integer: its number, its check and its field. -/
structure IntParam where
  pid : ℕ
  check : ℕ → Option ℕ
  get : TransportParams → ℕ
  put : TransportParams → ℕ → TransportParams

def intParams : List IntParam :=
  [⟨ParamId.maxIdleTimeout, some, (·.maxIdleTimeout), fun tp v => { tp with maxIdleTimeout := v }⟩,
    ⟨ParamId.maxUdpPayloadSize, inRange 1200 65527, (·.maxUdpPayloadSize),
      fun tp v => { tp with maxUdpPayloadSize := v }⟩,
    ⟨ParamId.initialMaxData, credit, (·.initialMaxData),
      fun tp v => { tp with initialMaxData := v }⟩,
    ⟨ParamId.initialMaxStreamDataBidiLocal, credit, (·.initialMaxStreamDataBidiLocal),
      fun tp v => { tp with initialMaxStreamDataBidiLocal := v }⟩,
    ⟨ParamId.initialMaxStreamDataBidiRemote, credit, (·.initialMaxStreamDataBidiRemote),
      fun tp v => { tp with initialMaxStreamDataBidiRemote := v }⟩,
    ⟨ParamId.initialMaxStreamDataUni, credit, (·.initialMaxStreamDataUni),
      fun tp v => { tp with initialMaxStreamDataUni := v }⟩,
    ⟨ParamId.initialMaxStreamsBidi, streams, (·.initialMaxStreamsBidi),
      fun tp v => { tp with initialMaxStreamsBidi := v }⟩,
    ⟨ParamId.initialMaxStreamsUni, streams, (·.initialMaxStreamsUni),
      fun tp v => { tp with initialMaxStreamsUni := v }⟩,
    ⟨ParamId.ackDelayExponent, inRange 0 20, (·.ackDelayExponent),
      fun tp v => { tp with ackDelayExponent := v }⟩,
    ⟨ParamId.maxAckDelay, inRange 0 (2 ^ 14 - 1), (·.maxAckDelay),
      fun tp v => { tp with maxAckDelay := v }⟩,
    ⟨ParamId.activeConnectionIdLimit, inRange 2 (2 ^ 20), (·.activeConnectionIdLimit),
      fun tp v => { tp with activeConnectionIdLimit := v }⟩]

/-- The parameters in the order in which they are written. -/
def params : List (ℕ × Bytes) :=
  optional ParamId.originalDestinationConnectionId tp.originalDestinationConnectionId ++
  (optional ParamId.initialSourceConnectionId tp.initialSourceConnectionId ++
  (optional ParamId.retrySourceConnectionId tp.retrySourceConnectionId ++
  (optional ParamId.statelessResetToken (tp.statelessResetToken.map (·.bytes)) ++
  (intParams.map (fun p => (p.pid, writeVarint (p.get tp))) ++
  optional ParamId.disableActiveMigration (if tp.disableActiveMigration then some [] else none)))))

variable {tp : TransportParams} {pid v : ℕ} {value : Bytes} {check : ℕ → Option ℕ}
  {put : ℕ → TransportParams} {seen : List ℕ}

lemma putBytes_eq (pid : ℕ) (value : Bytes) : putBytes pid value = paramBytes (pid, value) :=
  append_assoc _ _ _

lemma putInt_eq (h : v < varintLimit) (pid : ℕ) :
    putInt pid v = paramBytes (pid, writeVarint v) := by
  rw [putInt, paramBytes, encodeData, writeVarint_length h, append_assoc]

lemma optional_bytes (pid : ℕ) (value : Option Bytes) :
    (optional pid value).flatMap paramBytes = value.elim [] (putBytes pid) := by
  cases value with
  | none => rfl
  | some value =>
    rw [optional, map_some, toList_some, flatMap_singleton, elim_some, putBytes_eq]

lemma token_bytes (pid : ℕ) (t : Option (Octets 16)) :
    (t.map (·.bytes)).elim [] (putBytes pid) = t.elim [] fun t => putBytes pid t.bytes := by
  cases t <;> rfl

lemma flag_bytes (flag : Bool) :
    (if flag then some ([] : Bytes) else none).elim [] (putBytes ParamId.disableActiveMigration) =
      if flag then writeVarint ParamId.disableActiveMigration ++ writeVarint 0 else [] := by
  cases flag <;> rfl

lemma Accepted.numbers (h : tp.Accepted) : tp.maxUdpPayloadSize < varintLimit ∧
    tp.initialMaxStreamsBidi < varintLimit ∧ tp.initialMaxStreamsUni < varintLimit ∧
    tp.ackDelayExponent < varintLimit ∧ tp.maxAckDelay < varintLimit ∧
    tp.activeConnectionIdLimit < varintLimit := by
  have hudp := h.udp.2
  have hbidi := h.streamsBidi
  have huni := h.streamsUni
  have hexponent := h.exponent
  have hdelay := h.ackDelay
  have hcids := h.cidLimit.2
  simp only [varintLimit, maxStreamsLimit] at *
  omega

lemma Accepted.encode_eq (h : tp.Accepted) : tp.encode = tp.params.flatMap paramBytes := by
  obtain ⟨hudp, hbidi, huni, hexponent, hdelay, hcids⟩ := h.numbers
  simp only [encode, params, intParams, map_cons, map_nil, flatMap_append,
    optional_bytes, token_bytes, flag_bytes, flatMap_cons, flatMap_nil, append_nil, putInt_eq h.idle, putInt_eq hudp,
    putInt_eq h.data, putInt_eq h.bidiLocal, putInt_eq h.bidiRemote, putInt_eq h.uni,
    putInt_eq hbidi, putInt_eq huni, putInt_eq hexponent, putInt_eq hdelay, putInt_eq hcids,
    append_assoc]

/-- A step of the loop, once its parameter is known. -/
def setAll (tp : TransportParams) (params : List (ℕ × Bytes)) : Option TransportParams :=
  params.foldlM (fun tp param => setParam tp param.1 param.2) tp

lemma reads_param {param : ℕ × Bytes} (hid : param.1 < varintLimit)
    (hvalue : param.2.length < varintLimit) (rest : Bytes) :
    vi (paramBytes param ++ rest) = some (param.1, encodeData param.2 ++ rest) ∧
      parseData (encodeData param.2 ++ rest) = some (param.2, rest) := by
  refine ⟨?_, reads_data hvalue rest⟩
  rw [paramBytes, append_assoc]
  exact reads_vi hid _

variable {rounds : ℕ}

/-- Parameters with different numbers are set one after the other. -/
theorem decodeParams_params {params : List (ℕ × Bytes)}
    (hsmall : ∀ param ∈ params, param.1 < varintLimit ∧ param.2.length < varintLimit)
    (hnodup : (params.map Prod.fst).Nodup) (hseen : ∀ pid ∈ params.map Prod.fst, pid ∉ seen)
    (hrounds : params.length ≤ rounds) :
    decodeParams rounds tp seen (params.flatMap paramBytes) = setAll tp params := by
  induction params generalizing tp seen rounds with
  | nil => cases rounds <;> rfl
  | cons param params ih =>
    obtain ⟨rounds, rfl⟩ : ∃ k, rounds = k + 1 := ⟨rounds - 1, by simp at hrounds; omega⟩
    obtain ⟨hid, hvalue⟩ := hsmall param mem_cons_self
    obtain ⟨hvi, hdata⟩ := reads_param hid hvalue (params.flatMap paramBytes)
    obtain ⟨hnot, hrest⟩ := nodup_cons.mp hnodup
    have hcons : ∃ b bytes, paramBytes param ++ params.flatMap paramBytes = b :: bytes := by
      cases hbytes : paramBytes param ++ params.flatMap paramBytes with
      | cons b bytes => exact ⟨b, bytes, rfl⟩
      | nil =>
        rw [hbytes] at hvi
        cases hvi
    obtain ⟨b, bytes, hbytes⟩ := hcons
    rw [flatMap_cons, hbytes, decodeParams, ← hbytes, hvi]
    simp only [bind_eq_bind, bind_some]
    rw [if_neg (hseen param.1 mem_cons_self), hdata]
    simp only [bind_some]
    refine bind_congr fun tp' _ => ?_
    refine ih (fun p hp => hsmall p (mem_cons_of_mem _ hp)) hrest (fun pid hpid => ?_)
      (Nat.le_of_succ_le_succ hrounds)
    rw [mem_cons, not_or]
    refine ⟨fun heq => hnot (heq ▸ hpid), hseen pid (mem_cons_of_mem _ hpid)⟩

lemma asInt_write (h : v < varintLimit) : asInt (writeVarint v) = some v := by
  have hread := readVarint_write h []
  rw [append_nil] at hread
  rw [asInt, hread]
  exact if_pos (writeVarint_length h).symm

lemma setInt_write {u : ℕ} (h : v < varintLimit) (hcheck : check v = some u) :
    setInt (writeVarint v) check put = some (put u) := by
  rw [setInt, asInt_write h]
  simp only [bind_eq_bind, bind_some, hcheck]
  rfl

lemma inRange_eq {low high : ℕ} (h : low ≤ v ∧ v ≤ high) : inRange low high v = some v := if_pos h

lemma streams_eq (h : v ≤ maxStreamsLimit) : streams v = some (min v maxStreams) :=
  if_neg (not_lt.mpr h)

variable {tp' : TransportParams}

lemma setAll_cons (h : setParam tp pid value = some tp')
    (params : List (ℕ × Bytes)) : setAll tp ((pid, value) :: params) = setAll tp' params := by
  rw [setAll, foldlM_cons, h]
  rfl

lemma setParam_int : ∀ p ∈ intParams, ∀ (tp : TransportParams) (value : Bytes),
    setParam tp p.pid value = setInt value p.check (p.put tp) := by
  simp only [intParams, forall_mem_cons]
  refine ⟨?_, ?_, ?_, ?_, ?_, ?_, ?_, ?_, ?_, ?_, ?_, fun _ h => absurd h not_mem_nil⟩ <;>
    exact fun _ _ => rfl

lemma setAll_ints {final : TransportParams} {ps : List IntParam} (hps : ∀ p ∈ ps, p ∈ intParams)
    (hvalue : ∀ p ∈ ps, p.get tp < varintLimit ∧ p.check (p.get tp) = some (p.get final))
    (start : TransportParams) (params : List (ℕ × Bytes)) :
    setAll start (ps.map (fun p => (p.pid, writeVarint (p.get tp))) ++ params) =
      setAll (ps.foldl (fun tp p => p.put tp (p.get final)) start) params := by
  induction ps generalizing start with
  | nil => rfl
  | cons p ps ih =>
    obtain ⟨hlimit, hcheck⟩ := hvalue p mem_cons_self
    have hset := setParam_int p (hps p mem_cons_self) start (writeVarint (p.get tp))
    rw [map_cons, cons_append, setAll_cons (hset.trans (setInt_write hlimit hcheck))]
    exact ih (fun q hq => hps q (mem_cons_of_mem p hq))
      (fun q hq => hvalue q (mem_cons_of_mem p hq)) _

lemma setAll_optional {value : Option Bytes} (tp' : TransportParams)
    (hnone : value = none → tp' = tp) (hsome : ∀ v, value = some v → setParam tp pid v = some tp')
    (params : List (ℕ × Bytes)) : setAll tp (optional pid value ++ params) = setAll tp' params := by
  cases value with
  | none =>
    rw [hnone rfl]
    rfl
  | some v => exact setAll_cons (hsome v rfl) params

/-- The defaults with the first one to four of the parameters that are written. -/
def withOriginal (tp : TransportParams) : TransportParams :=
  { originalDestinationConnectionId := tp.originalDestinationConnectionId }

def withInitial (tp : TransportParams) : TransportParams :=
  { tp.withOriginal with initialSourceConnectionId := tp.initialSourceConnectionId }

def withRetry (tp : TransportParams) : TransportParams :=
  { tp.withInitial with retrySourceConnectionId := tp.retrySourceConnectionId }

def withToken (tp : TransportParams) : TransportParams :=
  { tp.withRetry with statelessResetToken := tp.statelessResetToken }

lemma Accepted.ints (h : tp.Accepted) : ∀ p ∈ intParams,
    p.get tp < varintLimit ∧ p.check (p.get tp) = some (p.get tp.limited) := by
  obtain ⟨hudp, hbidi, huni, hexponent, hdelay, hcids⟩ := h.numbers
  have hdelayRange : 0 ≤ tp.maxAckDelay ∧ tp.maxAckDelay ≤ 2 ^ 14 - 1 := by
    have := h.ackDelay
    omega
  simp only [intParams, forall_mem_cons]
  exact ⟨⟨h.idle, rfl⟩, ⟨hudp, inRange_eq h.udp⟩, ⟨h.data, rfl⟩, ⟨h.bidiLocal, rfl⟩,
    ⟨h.bidiRemote, rfl⟩, ⟨h.uni, rfl⟩, ⟨hbidi, streams_eq h.streamsBidi⟩,
    ⟨huni, streams_eq h.streamsUni⟩, ⟨hexponent, inRange_eq ⟨Nat.zero_le _, h.exponent⟩⟩,
    ⟨hdelay, inRange_eq hdelayRange⟩, ⟨hcids, inRange_eq h.cidLimit⟩,
    fun _ h => absurd h not_mem_nil⟩

lemma Accepted.setAll_params (h : tp.Accepted) : setAll {} tp.params = some tp.limited := by
  have hcid : ∀ {c : Bytes}, c.length ≤ maxCidLen → cid c = some c := fun hlen => if_pos hlen
  rw [params]
  rw [setAll_optional tp.withOriginal (fun hnone => by rw [withOriginal, hnone])
    fun c hc => by
      change (cid c).map _ = _
      rw [hcid (h.originalDestination c hc), withOriginal, hc]
      rfl]
  rw [setAll_optional tp.withInitial (fun hnone => by rw [withInitial, hnone]; rfl)
    fun c hc => by
      change (cid c).map _ = _
      rw [hcid (h.initialSource c hc), withInitial, hc]
      rfl]
  rw [setAll_optional tp.withRetry (fun hnone => by rw [withRetry, hnone]; rfl)
    fun c hc => by
      change (cid c).map _ = _
      rw [hcid (h.retrySource c hc), withRetry, hc]
      rfl]
  rw [setAll_optional tp.withToken
    (fun hnone => by rw [withToken, map_eq_none_iff.mp hnone]; rfl)
    fun value hvalue => by
      obtain ⟨t, ht, hbytes⟩ := map_eq_some_iff.mp hvalue
      change (token value).map _ = _
      rw [token, dif_pos (hbytes ▸ t.length_eq), withToken, ht]
      subst hbytes
      rfl]
  rw [setAll_ints (fun p hp => hp) h.ints]
  rw [← append_nil (optional ParamId.disableActiveMigration _)]
  rw [setAll_optional tp.limited (fun hnone => ?_) fun value hvalue => ?_]
  · rfl
  · cases hflag : tp.disableActiveMigration with
    | false =>
      rw [limited, hflag]
      rfl
    | true =>
      rw [hflag] at hnone
      cases hnone
  cases hflag : tp.disableActiveMigration with
  | false =>
    rw [hflag] at hvalue
    cases hvalue
  | true =>
    rw [hflag] at hvalue
    cases hvalue
    rw [limited, hflag]
    rfl

def written : List ℕ :=
  [ParamId.originalDestinationConnectionId, ParamId.initialSourceConnectionId,
    ParamId.retrySourceConnectionId, ParamId.statelessResetToken, ParamId.maxIdleTimeout,
    ParamId.maxUdpPayloadSize, ParamId.initialMaxData, ParamId.initialMaxStreamDataBidiLocal,
    ParamId.initialMaxStreamDataBidiRemote, ParamId.initialMaxStreamDataUni,
    ParamId.initialMaxStreamsBidi, ParamId.initialMaxStreamsUni, ParamId.ackDelayExponent,
    ParamId.maxAckDelay, ParamId.activeConnectionIdLimit, ParamId.disableActiveMigration]

lemma optional_sublist (pid : ℕ) (value : Option Bytes) :
    ((optional pid value).map Prod.fst).Sublist [pid] := by
  cases value with
  | none => exact nil_sublist _
  | some value => exact Sublist.refl _

lemma params_sublist (tp : TransportParams) : (tp.params.map Prod.fst).Sublist written := by
  simp only [params, map_append]
  exact (optional_sublist _ _).append ((optional_sublist _ _).append ((optional_sublist _ _).append
    ((optional_sublist _ _).append ((Sublist.refl _).append (optional_sublist _ _)))))

lemma writeVarint_short (v : ℕ) : (writeVarint v).length ≤ 20 := by
  unfold writeVarint
  split_ifs <;> rw [BigEndian.encode_length] <;> decide

lemma optional_short {value : Option Bytes} (h : ∀ v ∈ value, v.length ≤ 20) :
    ∀ param ∈ optional pid value, param.2.length ≤ 20 := by
  intro param hparam
  obtain ⟨v, hv, hparam⟩ := map_eq_some_iff.mp (mem_toList.mp hparam)
  subst hparam
  exact h v hv

lemma Accepted.short (h : tp.Accepted) : ∀ param ∈ tp.params, param.2.length ≤ 20 := by
  refine forall_mem_append.mpr ⟨optional_short h.originalDestination,
    forall_mem_append.mpr ⟨optional_short h.initialSource,
    forall_mem_append.mpr ⟨optional_short h.retrySource,
    forall_mem_append.mpr ⟨optional_short fun v hv => ?_,
    forall_mem_append.mpr ⟨?_, optional_short fun v hv => ?_⟩⟩⟩⟩⟩
  · obtain ⟨t, -, rfl⟩ := map_eq_some_iff.mp hv
    rw [t.length_eq]
    decide
  · intro param hparam
    obtain ⟨p, -, rfl⟩ := mem_map.mp hparam
    exact writeVarint_short _
  · split_ifs at hv with hflag
    · cases hv
      exact Nat.zero_le _
    · cases hv

lemma length_le_bytes (params : List (ℕ × Bytes)) :
    params.length ≤ (params.flatMap paramBytes).length := by
  induction params with
  | nil => exact le_rfl
  | cons param params ih =>
    have hpos := length_pos_iff.mpr (writeVarint_ne_nil param.1)
    rw [flatMap_cons, length_cons, length_append, paramBytes, length_append]
    omega

lemma Accepted.decode_encode (h : tp.Accepted) : decode tp.encode = some tp.limited := by
  have hids := params_sublist tp
  have hwritten : written.Nodup ∧ ∀ pid ∈ written, pid < varintLimit := by decide
  rw [decode, h.encode_eq, decodeParams_params (fun param hparam => ⟨?_, ?_⟩) (hids.nodup hwritten.1)
    (fun _ _ => not_mem_nil) (length_le_bytes _)]
  · exact h.setAll_params
  · exact hwritten.2 _ (hids.subset (mem_map_of_mem hparam))
  · exact lt_of_le_of_lt (h.short param hparam) (by decide)

/-- The numbers of the parameters that stand one behind the other, as far as one follows them. -/
inductive Ids : Bytes → List ℕ → Prop
  | nil (bytes : Bytes) : Ids bytes []
  | last {bytes rest : Bytes} {pid : ℕ} (hid : vi bytes = some (pid, rest)) : Ids bytes [pid]
  | cons {bytes rest value after : Bytes} {pid : ℕ} {ids : List ℕ}
      (hid : vi bytes = some (pid, rest)) (hvalue : parseData rest = some (value, after))
      (h : Ids after ids) : Ids bytes (pid :: ids)

lemma decodeParams_step {bytes rest : Bytes} (hid : vi bytes = some (pid, rest)) (h : decodeParams rounds tp seen bytes = some tp') :
    pid ∉ seen ∧ ∀ value after, parseData rest = some (value, after) →
      ∃ rounds' next, decodeParams rounds' next (pid :: seen) after = some tp' := by
  cases bytes with
  | nil => cases hid
  | cons b bytes =>
    cases rounds with
    | zero => cases h
    | succ rounds =>
      rw [decodeParams, hid] at h
      simp only [bind_eq_bind, bind_some] at h
      by_cases hmem : pid ∈ seen
      · rw [if_pos hmem] at h
        cases h
      rw [if_neg hmem] at h
      refine ⟨hmem, fun value after hvalue => ?_⟩
      rw [hvalue] at h
      simp only [bind_some] at h
      obtain ⟨next, -, hnext⟩ := bind_eq_some_iff.mp h
      exact ⟨rounds, next, hnext⟩

/-- What the loop accepts has no number twice. -/
theorem decodeParams_nodup {bytes : Bytes} {ids : List ℕ} (hids : Ids bytes ids) (h : decodeParams rounds tp seen bytes = some tp') :
    ids.Nodup ∧ ∀ pid ∈ ids, pid ∉ seen := by
  induction hids generalizing rounds tp seen with
  | nil _ => exact ⟨nodup_nil, fun _ hmem => absurd hmem not_mem_nil⟩
  | @last bytes rest pid hid =>
    have hstep := decodeParams_step hid h
    refine ⟨nodup_singleton pid, fun other hother => ?_⟩
    rw [mem_singleton.mp hother]
    exact hstep.1
  | @cons bytes rest value after pid ids hid hvalue _ ih =>
    obtain ⟨hnot, hstep⟩ := decodeParams_step hid h
    obtain ⟨rounds', next, hnext⟩ := hstep value after hvalue
    obtain ⟨hnodup, hseen⟩ := ih hnext
    refine ⟨nodup_cons.mpr ⟨fun hmem => ?_, hnodup⟩, fun other hother => ?_⟩
    · exact hseen pid hmem mem_cons_self
    · rcases mem_cons.mp hother with rfl | hother
      · exact hnot
      · exact fun hmem => hseen other hother (mem_cons_of_mem _ hmem)

lemma decode_repeated {buf : Bytes} {ids : List ℕ} (hids : Ids buf ids) (h : ¬ ids.Nodup) :
    decode buf = none := by
  cases hdecode : decode buf with
  | none => rfl
  | some tp => exact absurd (decodeParams_nodup hids hdecode).1 h

/-- A limit that is cut. -/
def largeCredit : TransportParams := { initialMaxData := 2 ^ 41 }

lemma accepted_largeCredit : largeCredit.Accepted := by
  refine ⟨?_, ?_, ?_, ?_, ?_, ?_, ?_, ?_, ?_, ?_, ?_, ?_, ?_, ?_⟩ <;> decide

theorem largeCredit_not_kept :
    ¬ ∀ tp : TransportParams, tp.Accepted → decode tp.encode = some tp := by
  intro h
  have hkept := h largeCredit accepted_largeCredit
  rw [accepted_largeCredit.decode_encode] at hkept
  exact absurd hkept (by decide)

end TransportParams

/-- Frames that are written are read, parameters that are written are read with the limits cut, and
a number that comes again is refused. -/
theorem codec_round_trip :
    (∀ frames : List Frame, frames.length ≤ maxParsedFrames → (∀ f ∈ frames, f.Fits) →
      parse (encodeAll frames) = some (normalise frames)) ∧
    (∀ tp : TransportParams, tp.Accepted → TransportParams.decode tp.encode = some tp.limited) ∧
    ∀ (buf : Bytes) (ids : List ℕ), TransportParams.Ids buf ids → ¬ ids.Nodup →
      TransportParams.decode buf = none :=
  ⟨fun _ hlen hfits => parse_encodeAll hlen hfits, fun _ h => h.decode_encode,
    fun _ _ hids h => TransportParams.decode_repeated hids h⟩

def mixedFrames : List Frame :=
  [.padding 1, .padding 2, .ack 9 0 3 [(1, 2)], .stream 4 7 true [1, 2], .maxData 8]

theorem codec_round_trip_mixed : parse (encodeAll mixedFrames) = some (normalise mixedFrames) ∧
    TransportParams.decode TransportParams.largeCredit.encode =
      some TransportParams.largeCredit.limited ∧
    TransportParams.decode [1, 1, 5, 1, 1, 7] = none :=
  ⟨codec_round_trip.1 _ (by decide) (by simp [mixedFrames, Frame.Fits]; decide),
    codec_round_trip.2.1 _ TransportParams.accepted_largeCredit,
    codec_round_trip.2.2 _ [1, 1] (.cons rfl rfl (.last rfl)) (by decide)⟩

end OnetDns.Quic.Codec
