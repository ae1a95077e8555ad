import OnetDns.Quic.Delivery
import OnetDns.Quic.Honoured

/-!
# Two connections

Two connections and a network between them that loses, repeats and reorders. What the
reader gets of a stream is always the first part of what the writer gave it, and the end
is told with the last byte. It is told once as long as no frame of a stream arrives
between the moment its last byte is there and the moment it is read.
-/
namespace OnetDns.Quic
open List Function

/-- A connection, with what its application sent and read. -/
structure Party where
  conn : Connection
  sends : Pieces
  taken : Pieces
  /-- The places on the wire of the frames that have arrived. A packet number is accepted once, so
  none of them arrives again. -/
  arrived : List ℕ
  /-- The frames that were accepted. -/
  accepted : List Frame

open Party

namespace Party

/-- A connection that nothing has happened to. -/
def ofConnection (c : Connection) : Party := ⟨c, [], [], [], []⟩

/-- A call of the application or of a timer. Frames come from the peer only, and streams are read
with `take_readable`. -/
def act (p : Party) (k : Connection.Call) : Party :=
  match k with
  | .receive _ => p
  | .takeStreamRequests => p
  | .takeReadable plan =>
    { p with conn := (p.conn.exec (.takeReadable plan)).2, taken := p.taken ++ p.conn.readable }
  | k => { p with conn := (p.conn.exec k).2, sends := p.conn.sendsAfter p.sends k }

def receive (p : Party) (i : ℕ) (f : Frame) : Party :=
  { p with
    conn := (p.conn.onFrame f).2
    arrived := p.arrived ++ [i]
    accepted := match (p.conn.onFrame f).1 with
      | .ok () => p.accepted ++ [f]
      | .error _ => p.accepted }

def events (p : Party) : Pieces := p.taken ++ p.conn.readable

end Party

abbrev Exchange := Role → Party

namespace Exchange

inductive Event where
  | act (role : Role) (call : Connection.Call)
  | deliver (role : Role) (i : ℕ)

variable (x : Exchange)

/-- The frame that arrives, if it is not a copy of a packet that was there. -/
def arrival (role : Role) (i : ℕ) : Option Frame :=
  if (x role).conn.closed || (x role).arrived.contains i then none
  else (x role.peer).conn.log.wire[i]?

def step : Event → Exchange
  | .act role k => Function.update x role ((x role).act k)
  | .deliver role i =>
    match x.arrival role i with
    | none => x
    | some f => Function.update x role ((x role).receive i f)

def run (events : List Event) : Exchange := events.foldl step x

/-- No frame arrives for a stream that is complete and not read to its end. -/
def calm : Event → Bool
  | .act _ _ => true
  | .deliver role i =>
    match x.arrival role i with
    | some (.stream id _ _ _) => !((x role).conn.streamAt id).done
    | _ => true

def Calm : Exchange → List Event → Prop
  | _, [] => True
  | x, e :: rest => x.calm e = true ∧ Calm (x.step e) rest

def start (server client : TransportParams) (remembered : Option TransportParams)
    (earlySendKeys : Bool) : Exchange
  | .server => .ofConnection (.newServer server)
  | .client => .ofConnection (.newClient client remembered earlySendKeys)

end Exchange

/-- The end of a stream was told by a frame that was accepted. -/
def Connection.EndKnown (c : Connection) (id : ℕ) : Prop :=
  c.recvStreamClosed id = true ∨ ∃ v, c.view id = some v ∧ v.finOffset.isSome = true

/-- What a reader has got of what a writer sent. -/
structure Flow (reader writer : Party) : Prop where
  truthful : Connection.Truthful writer.sends reader.events
  following : reader.conn.Following writer.sends reader.events
  ends : ∀ id offset data, .stream id offset true data ∈ reader.accepted → reader.conn.EndKnown id

/-- The accounts of a party and its sending half are in order. -/
structure Party.Sound (p : Party) : Prop where
  accounts : ∃ seen, Connection.Accounts p.conn (Connection.eventBytes p.conn.readable) 0 seen
  sending : p.conn.Sending p.sends

namespace Connection

/-- A call that reads nothing leaves the receiving half alone. -/
structure Unread (c c' : Connection) : Prop where
  same : SameStreams c c'
  readable : c'.readable = c.readable

variable {c c' : Connection} {id : ℕ}

lemma unread_of_quiet (h : Quiet c c') : Unread c c' :=
  ⟨.of_eq h.streams h.closedRecvRanges, h.readable⟩

lemma Unread.trans {c'' : Connection} (h : Unread c c') (h' : Unread c' c'') :
    Unread c c'' := ⟨h.same.trans h'.same, h'.readable.trans h.readable⟩

lemma unread_completeHandshake (c : Connection) (earlyAccepted : Bool) :
    Unread c (c.completeHandshake earlyAccepted) := by
  rcases quiet_completeHandshake c earlyAccepted with ⟨-, hsame⟩ | hquiet
  · rw [hsame]
    exact ⟨⟨rfl, rfl⟩, rfl⟩
  · refine .trans ?_ (unread_of_quiet hquiet)
    unfold openWindow
    split <;> exact ⟨⟨rfl, rfl⟩, rfl⟩

lemma EndKnown.released {ids : List ℕ} (hid : c.EndKnown id)
    (h : Released c c' ids) : c'.EndKnown id := by
  rcases hid with hclosed | ⟨v, hv, hsome⟩
  · left
    rw [h.closed, hclosed, Bool.true_or]
  by_cases hmem : id ∈ ids
  · left
    rw [h.closed, hv]
    simp [hmem]
  · right
    exact ⟨v, by rw [h.view, if_neg hmem, hv], hsome⟩

lemma EndKnown.update {other : ℕ} {v : StreamView} (hid : c.EndKnown other)
    (hranges : c'.closedRecvRanges = c.closedRecvRanges)
    (hview : c'.view = Function.update c.view id (some v))
    (hfin : (c.streamAt id).finOffset.isSome = true → v.finOffset.isSome = true) :
    c'.EndKnown other := by
  rcases hid with hclosed | ⟨w, hw, hsome⟩
  · left
    rw [recvStreamClosed, hranges]
    exact hclosed
  right
  rw [hview]
  by_cases hother : other = id
  · subst hother
    obtain ⟨s, hs, rfl⟩ := Option.map_eq_some_iff.mp hw
    refine ⟨v, update_self .., hfin ?_⟩
    rw [streamAt_of_lookup hs]
    exact hsome
  · exact ⟨w, by rw [update_of_ne hother, hw], hsome⟩

lemma EndKnown.refused {stop other : ℕ} (hid : c.EndKnown other)
    (h : Refused c id stop c') : c'.EndKnown other := by
  rcases h.view with hview | ⟨-, n, -, hview⟩
  · rw [EndKnown, recvStreamClosed, h.closedRecvRanges, hview]
    exact hid
  · exact hid.update h.closedRecvRanges hview fun hsome => hsome

end Connection

variable {f : Frame}

namespace Party

open Connection

variable {p : Party}

/-- What an action does: it reads, or it leaves the receiving half alone. -/
theorem act_cases (p : Party) (k : Connection.Call) :
    ((∃ plan, (p.act k).conn = (p.conn.exec (.takeReadable plan)).2) ∧
      (p.act k).taken = p.taken ++ p.conn.readable) ∨
      Unread p.conn (p.act k).conn ∧ (p.act k).taken = p.taken := by
  have hsame : Unread p.conn p.conn := ⟨⟨rfl, rfl⟩, rfl⟩
  cases k with
  | takeReadable plan => exact .inl ⟨⟨plan, rfl⟩, rfl⟩
  | receive | takeStreamRequests => exact .inr ⟨hsame, rfl⟩
  | sendStream id data fin plan =>
    exact .inr ⟨unread_of_quiet (quiet_sendStreamOwned p.conn id data fin plan), rfl⟩
  | openUniStream =>
    refine .inr ⟨?_, rfl⟩
    simp only [act, exec, openUniStream]
    split
    · exact hsame
    split <;> exact ⟨⟨rfl, rfl⟩, rfl⟩
  | takeResets => exact .inr ⟨⟨⟨rfl, rfl⟩, rfl⟩, rfl⟩
  | challengePath data => exact .inr ⟨⟨⟨rfl, rfl⟩, rfl⟩, rfl⟩
  | flush plan => exact .inr ⟨unread_of_quiet (quiet_flush p.conn plan), rfl⟩
  | acked pns =>
    refine .inr ⟨?_, rfl⟩
    simp only [act, exec]
    split
    · exact hsame
    · exact unread_of_quiet (quiet_acked p.conn pns)
  | lost pns => exact .inr ⟨unread_of_quiet (quiet_lost p.conn pns), rfl⟩
  | probe pns => exact .inr ⟨unread_of_quiet (quiet_queueProbe p.conn pns), rfl⟩
  | peerParams tp =>
    refine .inr ⟨?_, rfl⟩
    simp only [act, exec, takePeerParams]
    split
    · exact hsame
    split <;> exact ⟨⟨rfl, rfl⟩, rfl⟩
  | handshakeComplete earlyAccepted =>
    refine .inr ⟨?_, rfl⟩
    simp only [act, exec]
    split
    · exact hsame
    · exact unread_completeHandshake p.conn earlyAccepted
  | close plan =>
    obtain ⟨hstreams, hreadable⟩ := unread_of_quiet (quiet_flush p.conn plan)
    exact .inr ⟨⟨hstreams, hreadable⟩, rfl⟩
  | abort => exact .inr ⟨⟨⟨rfl, rfl⟩, rfl⟩, rfl⟩

lemma act_eq (p : Party) (k : Connection.Call) :
    p.act k = p ∨ (∀ f, k ≠ .receive f) ∧ (p.act k).conn = (p.conn.exec k).2 ∧
      (p.act k).sends = p.conn.sendsAfter p.sends k := by
  cases k with
  | receive | takeStreamRequests => exact .inl rfl
  | _ => exact .inr ⟨nofun, rfl, rfl⟩

lemma Sound.act (h : p.Sound) (k : Connection.Call) : (p.act k).Sound := by
  rcases p.act_eq k with hsame | ⟨hk, hconn, hsends⟩
  · rw [hsame]
    exact h
  obtain ⟨⟨seen, haccounts⟩, hsending⟩ := h
  refine ⟨⟨seen, ?_⟩, ?_⟩
  · rw [hconn]
    exact (haccounts.exec fun f hf => absurd hf (hk f)).2
  · rw [hconn, hsends]
    exact hsending.exec hk

lemma Sound.sendsMore (h : p.Sound) (k : Connection.Call) : SendsMore p.sends (p.act k).sends := by
  cases k with
  | sendStream id data fin plan =>
    simp only [Party.act, sendsAfter]
    rcases sendStreamOwned_cases p.conn id data fin plan with
      ⟨e, hsame⟩ | ⟨-, -, -, hsealed, -, -, hsent⟩
    · rw [hsame]
      exact .same
    · rw [hsent]
      exact .more data fin (h.sending.isOpen hsealed)
  | _ => exact .same

/-- A frame of a peer that tells the truth. -/
theorem Sound.receive (h : p.Sound) {sent : Pieces} (hf : f.Genuine sent) (i : ℕ) :
    (p.receive i f).Sound := by
  obtain ⟨⟨seen, haccounts⟩, hsending⟩ := h
  have hkind : f.plain = true ∨ ∃ id offset fin data, f = .stream id offset fin data := by
    cases f with
    | stream id offset fin data => exact .inr ⟨id, offset, fin, data, rfl⟩
    | resetStream | stopSending => exact hf.elim
    | _ => exact .inl rfl
  refine ⟨?_, ?_⟩
  · rcases hkind with hplain | ⟨id, offset, fin, data, rfl⟩
    · refine ⟨seen, haccounts.quiet (quiet_onFrame ?_)⟩
      cases f with
      | stream | resetStream => cases hplain
      | _ => rfl
    · obtain ⟨-, seen', haccounts', -⟩ := (haccounts.onStream id offset fin data).1
      exact ⟨seen', haccounts'⟩
  · exact hsending.carries (carries_onFrame p.conn hkind)

end Party

namespace Flow

open Connection

variable {reader writer : Party}

lemma sendsMore {writer' : Party} (h : Flow reader writer)
    (hmore : SendsMore writer.sends writer'.sends) : Flow reader writer' :=
  ⟨h.truthful.mono hmore, h.following.mono hmore, h.ends⟩

/-- The receiving half is where it was. -/
theorem unread {reader' : Party} (h : Flow reader writer)
    (hunread : Unread reader.conn reader'.conn) (htaken : reader'.taken = reader.taken)
    (haccepted : ∀ id offset data, .stream id offset true data ∈ reader'.accepted → .stream id
      offset true data ∈ reader.accepted) : Flow reader' writer := by
  have hevents : reader'.events = reader.events := by
    rw [events, htaken, hunread.readable, events]
  refine ⟨?_, ?_, fun id offset data hmem => ?_⟩
  · rw [hevents]
    exact h.truthful
  · rw [hevents]
    exact h.following.same hunread.same
  · rw [EndKnown, hunread.same.recvStreamClosed, hunread.same.1]
    exact h.ends id offset data (haccepted id offset data hmem)

lemma unread_exec_takeReadable (c : Connection) (plan : FlushPlan) :
    Unread c.takeReadable (c.exec (.takeReadable plan)).2 := by
  simp only [exec]
  split
  · exact unread_of_quiet (quiet_flush _ plan)
  · exact ⟨⟨rfl, rfl⟩, rfl⟩

lemma accepted_act (p : Party) (k : Connection.Call) : (p.act k).accepted = p.accepted := by
  cases k <;> rfl

lemma events_read {p : Party} {k : Connection.Call} {plan : FlushPlan}
    (hconn : (p.act k).conn = (p.conn.exec (.takeReadable plan)).2)
    (htaken : (p.act k).taken = p.taken ++ p.conn.readable) : (p.act k).events = p.events := by
  rw [events, htaken, hconn, (unread_exec_takeReadable p.conn plan).readable,
    readable_takeReadable, append_nil, events]

lemma act (h : Flow reader writer) (k : Connection.Call) : Flow (reader.act k) writer := by
  have haccepted := accepted_act reader k
  rcases reader.act_cases k with ⟨⟨plan, hconn⟩, htaken⟩ | ⟨hunread, htaken⟩
  · have hevents := events_read hconn htaken
    have hsame := (unread_exec_takeReadable reader.conn plan).same
    refine ⟨?_, ?_, fun id offset data hmem => ?_⟩
    · rw [hevents]
      exact h.truthful
    · rw [hevents, hconn]
      exact (h.following.takeReadable fun e he => mem_append_right _ he).same hsame
    · rw [hconn, EndKnown, hsame.recvStreamClosed, hsame.1]
      rw [haccepted] at hmem
      exact (h.ends id offset data hmem).released (released_takeReadable reader.conn)
  · exact h.unread hunread htaken fun id offset data hmem => haccepted ▸ hmem

lemma onStream (h : Flow reader writer) (hsound : reader.Sound) {id offset : ℕ} {fin : Bool}
    {data : Bytes} (hf : Frame.Genuine writer.sends (.stream id offset fin data)) :
    reader.conn.recvStreamClosed id = true ∧ (reader.conn.onStream id offset fin data).2 =
        reader.conn ∨
      Took reader.conn id offset fin data (reader.conn.onStream id offset fin data).2 ∨
      (reader.conn.onStream id offset fin data).1 ≠ .ok () ∧
        Refused reader.conn id (offset + data.length)
          (reader.conn.onStream id offset fin data).2 := by
  obtain ⟨⟨seen, haccounts⟩, -⟩ := hsound
  refine onStream_cases (fun hopen => ?_) fun hopen hfin => ?_
  · have hinv := haccounts.streamAt hopen
    exact ⟨hinv.streamWf, hinv.limit⟩
  have hfollows := h.following.streamAt hopen
  obtain ⟨-, hstop⟩ := hf.2 hfin
  rw [hstop]
  refine ⟨hfollows.highest, ?_⟩
  cases hoffset : (reader.conn.streamAt id).finOffset with
  | none => rfl
  | some n => simp [(hfollows.fin n hoffset).2]

lemma mem_accepted {p : Party} {i : ℕ} {g : Frame} (h : g ∈ (p.receive i f).accepted) :
    g ∈ p.accepted ∨ g = f ∧ (p.conn.onFrame f).1 = .ok () := by
  simp only [receive] at h
  split at h
  · rename_i hok
    rcases mem_append.mp h with h | h
    · exact .inl h
    · exact .inr ⟨mem_singleton.mp h, hok⟩
  · exact .inl h

/-- A frame of the writer arrives. -/
theorem receive (h : Flow reader writer) (hsound : reader.Sound)
    (hf : f.Genuine writer.sends) (i : ℕ) : Flow (reader.receive i f) writer := by
  by_cases hextent : f.extent = none
  · refine h.unread (unread_of_quiet (quiet_onFrame hextent)) rfl fun id offset data hmem => ?_
    rcases mem_accepted hmem with hmem | ⟨rfl, -⟩
    · exact hmem
    · cases hextent
  cases f with
  | stream id offset fin data =>
    rcases h.onStream hsound hf with ⟨hclosed, hsame⟩ | htook | ⟨hwrong, hrefused⟩
    · have hconn : (reader.receive i (.stream id offset fin data)).conn = reader.conn := hsame
      have hevents : (reader.receive i (.stream id offset fin data)).events = reader.events := by
        rw [events, hconn]
        rfl
      refine ⟨hevents ▸ h.truthful, hevents ▸ hconn ▸ h.following, fun other place bytes hmem => ?_⟩
      rw [hconn]
      rcases mem_accepted hmem with hmem | ⟨heq, -⟩
      · exact h.ends other place bytes hmem
      · cases heq
        exact .inl hclosed
    · obtain ⟨newly, v, htakes, hview, hreadable⟩ := htook.taken
      have hevents : (reader.receive i (.stream id offset fin data)).events =
          reader.events ++ eventOf id newly v.complete := by
        rw [events, events, append_assoc]
        exact congrArg (reader.taken ++ ·) hreadable
      obtain ⟨htruthful, hfollowing⟩ := h.following.took h.truthful hf.1 hf.2 htook.isOpen
        htook.closedRecvRanges htakes hview
      refine ⟨hevents ▸ htruthful, hevents ▸ hfollowing, fun other place bytes hmem => ?_⟩
      rcases mem_accepted hmem with hmem | ⟨heq, -⟩
      · refine (h.ends other place bytes hmem).update htook.closedRecvRanges hview fun hsome => ?_
        rw [htakes.fin]
        split
        · rfl
        · exact hsome
      cases heq
      refine .inr ⟨v, ?_, ?_⟩
      · exact (congrFun hview id).trans (update_self ..)
      · rw [htakes.fin]
        rfl
    · have hevents : (reader.receive i (.stream id offset fin data)).events = reader.events :=
        congrArg (reader.taken ++ ·) hrefused.readable
      refine ⟨hevents ▸ h.truthful, hevents ▸ h.following.refused hrefused hf.1.le_length,
        fun other place bytes hmem => ?_⟩
      rcases mem_accepted hmem with hmem | ⟨-, hok⟩
      · exact (h.ends other place bytes hmem).refused hrefused
      · exact absurd hok hwrong
  | resetStream => exact hf.elim
  | _ => exact absurd rfl hextent

/-- Reading and sending tell no end of a stream again. -/
theorem counted_act (h : Flow reader writer) (hcounted : Counted reader.conn reader.events)
    (k : Connection.Call) : Counted (reader.act k).conn (reader.act k).events := by
  rcases reader.act_cases k with ⟨⟨plan, hconn⟩, htaken⟩ | ⟨hunread, htaken⟩
  · rw [events_read hconn htaken, hconn]
    refine .same ?_ (unread_exec_takeReadable reader.conn plan).same
    exact hcounted.takeReadable (fun e he => mem_append_right _ he) (hcounted.le_one h.following)
  · have hevents : (reader.act k).events = reader.events := by
      rw [events, htaken, hunread.readable, events]
    rw [hevents]
    exact hcounted.same hunread.same

/-- A frame tells the end of its stream once, if the stream was not complete. -/
theorem counted_receive (h : Flow reader writer) (hsound : reader.Sound)
    (hcounted : Counted reader.conn reader.events) (hf : f.Genuine writer.sends)
    (hnew : ∀ id offset fin data, f = .stream id offset fin data → (reader.conn.streamAt id).done =
      false) (i : ℕ) : Counted (reader.receive i f).conn (reader.receive i f).events := by
  by_cases hextent : f.extent = none
  · have hunread := unread_of_quiet (quiet_onFrame (c := reader.conn) hextent)
    have hevents : (reader.receive i f).events = reader.events :=
      congrArg (reader.taken ++ ·) hunread.readable
    rw [hevents]
    exact hcounted.same hunread.same
  cases f with
  | stream id offset fin data =>
    rcases h.onStream hsound hf with ⟨-, hsame⟩ | htook | ⟨-, hrefused⟩
    · have hconn : (reader.receive i (.stream id offset fin data)).conn = reader.conn := hsame
      rw [events, hconn]
      exact hcounted
    · obtain ⟨newly, v, htakes, hview, hreadable⟩ := htook.taken
      have hevents : (reader.receive i (.stream id offset fin data)).events =
          reader.events ++ eventOf id newly v.complete := by
        rw [events, events, append_assoc]
        exact congrArg (reader.taken ++ ·) hreadable
      rw [hevents]
      exact hcounted.took h.following htook.isOpen htook.closedRecvRanges htakes hview
        (hnew id offset fin data rfl)
    · have hevents : (reader.receive i (.stream id offset fin data)).events = reader.events :=
        congrArg (reader.taken ++ ·) hrefused.readable
      rw [hevents]
      exact hcounted.refused h.following hrefused
  | resetStream => exact hf.elim
  | _ => exact absurd rfl hextent

end Flow

namespace Exchange

/-- Both directions are in order. -/
structure Sound (x : Exchange) : Prop where
  party : ∀ role, (x role).Sound
  flow : ∀ role, Flow (x role) (x role.peer)

variable {x : Exchange}

lemma Sound.update (h : x.Sound) {role : Role} {p : Party} (hp : p.Sound)
    (hreads : Flow p (x role.peer)) (hwrites : Connection.SendsMore (x role).sends p.sends) :
    Sound (Function.update x role p) := by
  have hpeer : Function.update x role p role.peer = x role.peer := update_of_ne role.peer_ne _ _
  refine ⟨fun other => ?_, fun other => ?_⟩
  · rcases role.eq_or_eq_peer other with rfl | rfl
    · rw [update_self]
      exact hp
    · rw [hpeer]
      exact h.party _
  rcases role.eq_or_eq_peer other with rfl | rfl
  · rw [update_self, hpeer]
    exact hreads
  · rw [hpeer, Role.peer_peer, update_self]
    have hflow := h.flow role.peer
    rw [Role.peer_peer] at hflow
    exact hflow.sendsMore hwrites

lemma arrival_genuine (h : x.Sound) {role : Role} {i : ℕ}
    (hf : x.arrival role i = some f) : f.Genuine (x role.peer).sends := by
  unfold arrival at hf
  split at hf
  · cases hf
  · refine (h.party role.peer).sending.frames f ?_
    exact .inr (.inr (.inr (.inr (.inr (mem_of_getElem? hf)))))

lemma Sound.step (h : x.Sound) (e : Event) : (x.step e).Sound := by
  cases e with
  | act role k =>
    exact h.update ((h.party role).act k) ((h.flow role).act k) ((h.party role).sendsMore k)
  | deliver role i =>
    simp only [Exchange.step]
    split
    · exact h
    · rename_i f hf
      have hgenuine := arrival_genuine h hf
      exact h.update ((h.party role).receive hgenuine i)
        ((h.flow role).receive (h.party role) hgenuine i) .same

lemma Sound.run (h : x.Sound) (events : List Event) : (x.run events).Sound := by
  induction events generalizing x with
  | nil => exact h
  | cons e rest ih => exact ih (h.step e)

/-- The ends of streams are told once. -/
def Counted (x : Exchange) : Prop := ∀ role, Connection.Counted (x role).conn (x role).events

lemma Counted.step (hcounted : x.Counted) (h : x.Sound) {e : Event} (hcalm : x.calm e = true) :
    (x.step e).Counted := by
  have hupdate : ∀ role p, Connection.Counted p.conn p.events →
      Counted (update x role p) := by
    intro role p hp other
    by_cases hother : other = role
    · rw [hother, update_self]
      exact hp
    · rw [update_of_ne hother]
      exact hcounted other
  cases e with
  | act role k => exact hupdate role _ ((h.flow role).counted_act (hcounted role) k)
  | deliver role i =>
    simp only [calm] at hcalm
    simp only [Exchange.step]
    split
    · exact hcounted
    rename_i f hf
    refine hupdate role _ ((h.flow role).counted_receive (h.party role) (hcounted role)
      (arrival_genuine h hf) (fun id offset fin data heq => ?_) i)
    rw [hf, heq] at hcalm
    simpa using hcalm

lemma Counted.run (hcounted : x.Counted) (h : x.Sound) {events : List Event}
    (hcalm : x.Calm events) : (x.run events).Counted := by
  induction events generalizing x with
  | nil => exact hcounted
  | cons e rest ih => exact ih (hcounted.step h hcalm.1) (h.step e) hcalm.2

section Start

variable (role : Role) (tp : TransportParams) (remembered : Option TransportParams)
  (earlySendKeys : Bool)

lemma sound_ofConnection : (ofConnection (.start role tp remembered earlySendKeys)).Sound := by
  refine ⟨⟨0, Connection.accounts_start role tp remembered earlySendKeys⟩, fun f hf => ?_, nofun,
    fun _ _ _ => rfl, nofun⟩
  rcases hf with hf | hf | hf | hf | ⟨packet, hpacket, -⟩ | hf
  · cases hf
  · cases hf
  · cases hf
  · cases hf
  · cases hpacket
  · cases hf

lemma flow_ofConnection (c : Connection) :
    Flow (.ofConnection (.start role tp remembered earlySendKeys)) (.ofConnection c) :=
  ⟨⟨fun _ => prefix_rfl, nofun⟩, ⟨nofun, nofun⟩, nofun⟩

lemma counted_ofConnection :
    Connection.Counted (.start role tp remembered earlySendKeys)
      (ofConnection (.start role tp remembered earlySendKeys)).events :=
  ⟨nofun, nofun⟩

lemma sound_start (server client : TransportParams) :
    (start server client remembered earlySendKeys).Sound := by
  refine ⟨fun role => ?_, fun role => ?_⟩
  · cases role with
    | server => exact sound_ofConnection .server server none false
    | client => exact sound_ofConnection .client client remembered earlySendKeys
  · cases role with
    | server => exact flow_ofConnection .server server none false _
    | client => exact flow_ofConnection .client client remembered earlySendKeys _

lemma counted_start (server client : TransportParams) :
    (start server client remembered earlySendKeys).Counted := by
  intro role
  cases role with
  | server => exact counted_ofConnection .server server none false
  | client => exact counted_ofConnection .client client remembered earlySendKeys

end Start

/-- What the reader was given of a stream: the first part of what was sent, and the end of it once
and with the last byte. When nothing waits to be read, all bytes were given and the end arrived, it
was told. -/
structure Delivered (reader writer : Party) (id : ℕ) : Prop where
  bytes : reader.taken.bytes id <+: writer.sends.bytes id
  once : reader.taken.fins id ≤ 1
  fin : ∀ n e, reader.taken[n]? = some e → e.1 = id → e.2.2 = true →
    writer.sends.ended id = true ∧
      Pieces.bytes (reader.taken.take (n + 1)) id = writer.sends.bytes id
  told : reader.conn.readable = [] →
    (∃ offset data, .stream id offset true data ∈ reader.accepted) →
    reader.taken.bytes id = writer.sends.bytes id → reader.taken.fins id = 1

lemma delivered {reader writer : Party} (h : Flow reader writer)
    (hcounted : Connection.Counted reader.conn reader.events) (id : ℕ) :
    Delivered reader writer id := by
  have honce := hcounted.le_one h.following id
  have hbytes := h.truthful.bytes id
  rw [events, Pieces.fins_concat] at honce
  rw [events, Pieces.bytes_concat] at hbytes
  refine ⟨(prefix_append _ _).trans hbytes, by omega, fun n e he hid hfin => ?_,
    fun hread hend hall => ?_⟩
  · subst hid
    obtain ⟨hn, -⟩ := List.getElem?_eq_some_iff.mp he
    have hfact := h.truthful.fin n e (by rw [events, getElem?_append_left hn, he]) hfin
    rwa [events, take_append_of_le_length (by omega)] at hfact
  have hevents : reader.events = reader.taken := by rw [events, hread, append_nil]
  have hfollowing := h.following
  rw [hevents] at hcounted hfollowing
  obtain ⟨offset, data, hmem⟩ := hend
  rcases h.ends id offset data hmem with hclosed | ⟨v, hv, hsome⟩
  · exact hcounted.closed id hclosed
  have hfollows := hfollowing.streams id v hv
  have hoffset : v.asm.recvOffset = (writer.sends.bytes id).length := by
    have hgot := congrArg length hfollows.got
    rw [hall, length_take] at hgot
    have := hfollows.asm.le
    omega
  rw [hcounted.streams id v hv, hfollows.done, hfollows.complete_iff.mpr ⟨hsome, hoffset⟩]
  rfl

/-- For two connections, any calls and any deliveries: if no frame of a stream arrives while the
stream is complete and not read to its end, every stream is delivered in order and its end is told
exactly once. -/
theorem stream_delivery (server client : TransportParams) (remembered : Option TransportParams)
    (earlySendKeys : Bool) (events : List Event)
    (hcalm : (start server client remembered earlySendKeys).Calm events) (role : Role) (id : ℕ) :
    Delivered ((start server client remembered earlySendKeys).run events role)
      ((start server client remembered earlySendKeys).run events role.peer) id := by
  have hsound := sound_start remembered earlySendKeys server client
  exact delivered ((hsound.run events).flow role)
    ((counted_start remembered earlySendKeys server client).run hsound hcalm role) id

section Probe

/-- Limits that leave room for a short stream. -/
def roomy : TransportParams := ⟨100, 100, 100, 100, 10, 10⟩

/-- One packet with so many frames to send again, and so many new ones. -/
def onePacket (rtx app : ℕ) : Connection.FlushPlan := ⟨[], [⟨rtx, app⟩]⟩

/-- The client sends one byte and the end of stream 0. -/
def request : List Event :=
  [.act .client (.peerParams roomy), .act .client (.handshakeComplete false),
    .act .server (.peerParams roomy), .act .server (.handshakeComplete false),
    .act .client (.sendStream 0 [7] true (onePacket 0 2))]

/-- The client sends its packet again as a probe, and the server reads after both have arrived. -/
def probed : List Event :=
  request ++ [.act .client (.probe [0]), .act .client (.flush (onePacket 2 0)),
    .deliver .server 1, .deliver .server 3, .act .server (.takeReadable ⟨[], []⟩)]

/-- The probe arrives after the server has read. -/
def readInTime : List Event :=
  request ++ [.act .client (.probe [0]), .act .client (.flush (onePacket 2 0)),
    .deliver .server 1, .act .server (.takeReadable ⟨[], []⟩), .deliver .server 3,
    .act .server (.takeReadable ⟨[], []⟩)]

theorem stream_delivery_readInTime :
    Delivered ((start roomy roomy none false).run readInTime .server)
      ((start roomy roomy none false).run readInTime .client) 0 ∧
      ((start roomy roomy none false).run readInTime .server).taken = [(0, [7], true)] := by
  refine ⟨stream_delivery roomy roomy none false readInTime ?_ .server 0, by decide +kernel⟩
  simp only [readInTime, request, cons_append, nil_append, Calm]
  decide +kernel

/-- The end of the stream is told twice. -/
theorem fin_told_twice :
    ((start roomy roomy none false).run probed .client).sends = [(0, [7], true)] ∧
      ((start roomy roomy none false).run probed .server).taken = [(0, [7], true), (0, [], true)] ∧
      ¬Delivered ((start roomy roomy none false).run probed .server)
        ((start roomy roomy none false).run probed .client) 0 := by
  refine ⟨by decide +kernel, by decide +kernel, fun h => ?_⟩
  have htwice : ((start roomy roomy none false).run probed .server).taken.fins 0 = 2 := by
    decide +kernel
  have := h.once
  omega

end Probe

end Exchange

end OnetDns.Quic
