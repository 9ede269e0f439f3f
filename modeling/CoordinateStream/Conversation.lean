import CoordinateStream.JsonText

namespace CoordinateStream

/-! The answers to the clients' own messages, among the broadcasts they receive. -/

/-- The opcodes of the messages a handler is given. -/
inductive Opcode
  | text
  | binary
  deriving DecidableEq, Repr

/-- A message as it crosses a connection. -/
structure Frame where
  opcode : Opcode
  payload : Text
  deriving DecidableEq

/-- What `on_message` puts before the payload it sends back. -/
def echoHead : Text := "Server received: ".toList

/-- The answer of `on_message`, under the opcode of the message. -/
def Frame.echo (msg : Frame) : Frame := ⟨msg.opcode, echoHead ++ msg.payload⟩

/-- The message a frame answers, where it is an answer. -/
def Frame.message (f : Frame) : Option Frame :=
  if echoHead.isPrefixOf f.payload then
    some ⟨f.opcode, f.payload.drop echoHead.length⟩
  else none

@[simp] theorem Frame.message_echo (msg : Frame) : msg.echo.message = some msg := by
  have hprefix : echoHead.isPrefixOf (echoHead ++ msg.payload) = true :=
    List.isPrefixOf_iff_prefix.mpr (List.prefix_append _ _)
  rw [message, echo, if_pos hprefix, List.drop_left]

theorem Frame.message_eq_some {f msg : Frame} : f.message = some msg ↔ f = msg.echo := by
  constructor
  · intro h
    unfold message at h
    split_ifs at h with hprefix
    obtain ⟨rest, hrest⟩ := List.isPrefixOf_iff_prefix.mp hprefix
    rw [← hrest, List.drop_left] at h
    rw [← Option.some.inj h, echo, hrest]
  · rintro rfl
    exact message_echo msg

/-- The text of an update is never taken for an answer. -/
@[simp] theorem Frame.message_toJson (d : CoordinateData) :
    Frame.message ⟨.text, d.toJson⟩ = none := by
  obtain ⟨body, hbody, -⟩ := d.jsonText_eq_concat
  have hne : ¬echoHead.isPrefixOf d.toJson = true := by
    have hhead : echoHead = 'S' :: "erver received: ".toList := rfl
    rw [d.toJson_eq_take, hbody, List.take_succ_cons, hhead, List.isPrefixOf_cons_cons,
      beq_false_of_ne (by decide), Bool.false_and]
    decide
  exact if_neg hne

/-- No reader of JSON accepts an answer, whatever the client wrote. -/
theorem Frame.not_wellFormed_echo (msg : Frame) : ¬Json.WellFormed msg.echo.payload := by
  apply Json.not_wellFormed_of_refused (k := 1)
  intro n
  rfl

/-- The publisher process with the frames that `m_server.send` enqueued for each client. -/
structure Conversation where
  process : PublisherProcess
  frames : ConnectionHdl → List Frame

namespace Conversation

inductive Event
  | process (e : PublisherProcess.Event)
  /-- The handler of a message; its `send` may throw. -/
  | onMessage (hdl : ConnectionHdl) (msg : Frame) (throws : Bool)

def init : Conversation := ⟨.init, fun _ => []⟩

/-- `m_server.send`: the frame is enqueued, or the call throws and is caught. -/
def send (f : Frame) (fails : ConnectionHdl → Bool) (frames : ConnectionHdl → List Frame)
    (h : ConnectionHdl) : ConnectionHdl → List Frame :=
  if fails h then frames else Function.update frames h (frames h ++ [f])

/-- The frames after an event of the process: `broadcast` sends text frames. -/
def framesAfter (s : Conversation) : PublisherProcess.Event → ConnectionHdl → List Frame
  | .server (.emit fails) =>
    if s.process.server.cast.lastBroadcastSequence < s.process.shared.getLatest.sequence then
      s.process.server.cast.connections.toList.foldl
        (send ⟨.text, s.process.shared.getLatest.toJson⟩ fails) s.frames
    else s.frames
  | _ => s.frames

/-- `on_message` answers the client that wrote, and no other. -/
def step (s : Conversation) : Event → Option Conversation
  | .process e => (PublisherProcess.machine.step s.process e).map fun p =>
    ⟨p, s.framesAfter e⟩
  | .onMessage hdl msg throws =>
    if s.process.server.takesHandler then
      some { s with frames := send msg.echo (fun _ => throws) s.frames hdl }
    else none

def machine : Machine Conversation Event := ⟨init, step⟩

theorem step_cases {s t : Conversation} {e : Event} (h : machine.step s e = some t) :
    (∃ a p, e = .process a ∧ PublisherProcess.machine.step s.process a = some p ∧
      t = ⟨p, s.framesAfter a⟩) ∨
    (∃ hdl msg throws, e = .onMessage hdl msg throws ∧
      s.process.server.takesHandler = true ∧
      t = { s with frames := send msg.echo (fun _ => throws) s.frames hdl }) := by
  cases e with
  | process a =>
    obtain ⟨p, hp, rfl⟩ := Option.map_eq_some_iff.mp h
    exact .inl ⟨a, p, rfl, hp, rfl⟩
  | onMessage hdl msg throws =>
    simp only [machine, step, Option.ite_none_right_eq_some, Option.some.injEq] at h
    exact .inr ⟨hdl, msg, throws, rfl, h.1, h.2.symm⟩

theorem send_apply (f : Frame) (fails : ConnectionHdl → Bool)
    (frames : ConnectionHdl → List Frame) (k h : ConnectionHdl) :
    send f fails frames k h = if h = k ∧ fails k = false then frames h ++ [f] else frames h := by
  unfold send
  cases hf : fails k with
  | true => simp
  | false =>
    rcases eq_or_ne h k with rfl | hne
    · simp
    · simp [hne]

/-- Each registered client whose send does not throw is sent the frame once. -/
theorem foldl_send (f : Frame) (fails : ConnectionHdl → Bool) (h : ConnectionHdl)
    {hs : List ConnectionHdl} (hnodup : hs.Nodup) (frames : ConnectionHdl → List Frame) :
    hs.foldl (send f fails) frames h =
      if h ∈ hs ∧ fails h = false then frames h ++ [f] else frames h := by
  induction hs generalizing frames with
  | nil => simp
  | cons k hs ih =>
    rw [List.foldl_cons, ih (List.nodup_cons.mp hnodup).2, send_apply]
    have hk := (List.nodup_cons.mp hnodup).1
    rcases eq_or_ne h k with rfl | hne
    · simp [hk]
    · simp [hne]

theorem foldl_connections (f : Frame) (fails : ConnectionHdl → Bool) (c : Connections)
    (frames : ConnectionHdl → List Frame) (h : ConnectionHdl) :
    c.toList.foldl (send f fails) frames h =
      if h ∈ c ∧ fails h = false then frames h ++ [f] else frames h :=
  foldl_send f fails h c.nodup frames

/-- The update that an event of the process sends to a client. -/
def castTo (p : PublisherProcess) (h : ConnectionHdl) :
    PublisherProcess.Event → Option CoordinateData
  | .server (.emit fails) =>
    if p.server.cast.lastBroadcastSequence < p.shared.getLatest.sequence ∧
        h ∈ p.server.cast.connections ∧ fails h = false then
      some p.shared.getLatest
    else none
  | _ => none

theorem framesAfter_apply (s : Conversation) (a : PublisherProcess.Event) (h : ConnectionHdl) :
    s.framesAfter a h =
      s.frames h ++ (castTo s.process h a).toList.map fun d => ⟨.text, d.toJson⟩ := by
  match a with
  | .server (.emit fails) =>
    dsimp only [framesAfter, castTo]
    by_cases hfresh : s.process.server.cast.lastBroadcastSequence <
        s.process.shared.getLatest.sequence
    · rw [if_pos hfresh, foldl_connections]
      by_cases hto : h ∈ s.process.server.cast.connections ∧ fails h = false
      · rw [if_pos hto, if_pos ⟨hfresh, hto⟩]
        rfl
      · rw [if_neg hto, if_neg fun hall => hto hall.2]
        exact (List.append_nil _).symm
    · rw [if_neg hfresh, if_neg fun hall => hfresh hall.1]
      exact (List.append_nil _).symm
  | .producer _ | .publisher _ | .server (.run _) | .server (.stop _ _) | .server (.onOpen _)
  | .server (.onClose _) | .server .tick => exact (List.append_nil _).symm

/-- The texts the process counts for a client grow by the same update. -/
theorem received_step {p q : PublisherProcess} {a : PublisherProcess.Event}
    (hst : PublisherProcess.machine.step p a = some q) (h : ConnectionHdl) :
    q.server.cast.received h =
      p.server.cast.received h ++ (castTo p h a).toList.map (·.toJson) := by
  rcases PublisherProcess.step_cases hst with
    ⟨b, r, u, rfl, -, rfl⟩ | ⟨b, r, rfl, -, rfl⟩ | ⟨b, w, rfl, hw, rfl⟩
  · exact (List.append_nil _).symm
  · exact (List.append_nil _).symm
  · dsimp only
    cases b with
    | emit fails =>
      simp only [WebSocketServer.step, Option.ite_none_right_eq_some, Option.some.injEq] at hw
      obtain ⟨-, rfl⟩ := hw
      dsimp only [castTo, WebSocketServer.Broadcaster.broadcastLatest]
      by_cases hfresh : p.server.cast.lastBroadcastSequence < p.shared.getLatest.sequence
      · rw [if_pos hfresh]
        dsimp only
        rw [WebSocketServer.Broadcaster.broadcast_apply]
        by_cases hto : h ∈ p.server.cast.connections ∧ fails h = false
        · rw [if_pos hto, if_pos ⟨hfresh, hto⟩]
          rfl
        · rw [if_neg hto, if_neg fun hall => hto hall.2]
          exact (List.append_nil _).symm
      · rw [if_neg hfresh, if_neg fun hall => hfresh hall.1]
        exact (List.append_nil _).symm
    | run _ | stop _ _ | onOpen _ | onClose _ | tick =>
      -- no other event of the server writes to a connection
      rw [show w.cast.received h = p.server.cast.received h by
        rcases WebSocketServer.step_cast hw with hc | ⟨k, -, hc⟩ | ⟨k, -, hc⟩ | ⟨fails, he, -⟩
        · rw [hc]
        · rw [hc]; rfl
        · rw [hc]; rfl
        · cases he]
      exact (List.append_nil _).symm

/-- The message of an event that is answered to the client. -/
def Event.answered (h : ConnectionHdl) : Event → Option Frame
  | .process _ => none
  | .onMessage hdl msg throws => if h = hdl ∧ throws = false then some msg else none

/-- The event is no message of another client. -/
def Event.concerns (h : ConnectionHdl) : Event → Bool
  | .process _ => true
  | .onMessage hdl _ _ => h = hdl

theorem answered_step {s t : Conversation} {e : Event} (hst : machine.step s e = some t)
    (h : ConnectionHdl) : (t.frames h).filterMap Frame.message =
      (s.frames h).filterMap Frame.message ++ (e.answered h).toList := by
  rcases step_cases hst with ⟨a, p, rfl, -, rfl⟩ | ⟨hdl, msg, throws, rfl, -, rfl⟩
  · dsimp only
    rw [framesAfter_apply, List.filterMap_append]
    congr 1
    cases castTo s.process h a with
    | none => rfl
    | some d => simp [Event.answered]
  · dsimp only [Event.answered]
    rw [send_apply]
    split_ifs
    · rw [List.filterMap_append, List.filterMap_cons_some (Frame.message_echo msg)]
      rfl
    · exact (List.append_nil _).symm

/-- The frames of a client that answer nothing are the texts the process counts for it. -/
def Apart (h : ConnectionHdl) (s : Conversation) : Prop :=
  (s.frames h).filter (·.message.isNone) =
    (s.process.server.cast.received h).map fun text => ⟨.text, text⟩

theorem step_apart {s t : Conversation} {e : Event} {h : ConnectionHdl} (hs : Apart h s)
    (hst : machine.step s e = some t) : Apart h t := by
  unfold Apart at hs ⊢
  rcases step_cases hst with ⟨a, p, rfl, hp, rfl⟩ | ⟨hdl, msg, throws, rfl, -, rfl⟩
  · dsimp only
    rw [framesAfter_apply, List.filter_append, received_step hp, List.map_append, hs]
    congr 1
    cases castTo s.process h a with
    | none => rfl
    | some d => simp
  · dsimp only
    rw [send_apply, ← hs]
    split_ifs
    · rw [List.filter_append, List.filter_singleton, Frame.message_echo]
      exact List.append_nil _
    · rfl

theorem process_of_run {es : List Event} {s : Conversation} (hs : machine.run init es = some s) :
    PublisherProcess.machine.Reachable s.process := by
  refine Machine.run_invariant
    (I := fun s : Conversation => PublisherProcess.machine.Reachable s.process) ?_ .init hs
  intro s t e hi hst
  rcases step_cases hst with ⟨a, p, rfl, hp, rfl⟩ | ⟨hdl, msg, throws, rfl, -, rfl⟩
  · exact hi.step hp
  · exact hi

theorem received_update {p : PublisherProcess} (hp : PublisherProcess.machine.Reachable p)
    {h : ConnectionHdl} {text : Text} (ht : text ∈ p.server.cast.received h) :
    ∃ d ∈ p.shared.updates, text = d.toJson := by
  rw [(PublisherProcess.streams_of_reachable hp h).received_eq] at ht
  obtain ⟨e, he, rfl⟩ := List.mem_map.mp ht
  have hcast := (WebSocketServer.streamOf_sublist h false _).subset he
  have hemitted :=
    PublisherProcess.emitted_of_sampler (PublisherProcess.inv_of_reachable hp).server.sampler
  have hget := (hemitted.fromUpdate e hcast).2
  exact ⟨e.item, List.mem_of_getElem? hget, rfl⟩

/-- Whatever other clients write, a client is sent the same. -/
theorem alone_of_run {es : List Event} {s : Conversation} (hs : machine.run init es = some s)
    (h : ConnectionHdl) : ∃ t, machine.run init (es.filter (Event.concerns h)) = some t ∧
      t.process = s.process ∧ t.frames h = s.frames h := by
  have hrun := Machine.run_erase (M := machine) (N := machine)
    (R := fun s t => t.process = s.process ∧ t.frames h = s.frames h)
    (g := Option.guard (Event.concerns h)) ?_ ?_ (t := init) ⟨rfl, rfl⟩ hs
  · rwa [List.filterMap_eq_filter] at hrun
  · intro s t e b s' hst hb hs'
    obtain ⟨rfl, -⟩ := Option.guard_eq_some_iff.mp hb
    rcases step_cases hs' with ⟨a, p, rfl, hp, rfl⟩ | ⟨hdl, msg, throws, rfl, hh, rfl⟩
    · refine ⟨⟨p, t.framesAfter a⟩, ?_, rfl, ?_⟩
      · show (PublisherProcess.machine.step t.process a).map _ = _
        rw [hst.1, hp]
        rfl
      · dsimp only
        rw [framesAfter_apply, framesAfter_apply, hst.1, hst.2]
    · refine ⟨{ t with frames := send msg.echo (fun _ => throws) t.frames hdl }, ?_, hst.1, ?_⟩
      · show (if t.process.server.takesHandler then _ else _) = _
        rw [hst.1, if_pos hh]
      · dsimp only
        rw [send_apply, send_apply, hst.2]
  · intro s t e s' hst he hs'
    have hother : Event.concerns h e = false := by simpa using Option.guard_eq_none_iff.mp he
    rcases step_cases hs' with ⟨a, p, rfl, hp, rfl⟩ | ⟨hdl, msg, throws, rfl, hh, rfl⟩
    · cases hother
    · refine ⟨hst.1, ?_⟩
      have hne : h ≠ hdl := of_decide_eq_false hother
      dsimp only
      rw [send_apply, if_neg fun hall => hne hall.1, hst.2]

/-- What a client is sent in a run: the broadcasts and the answers to its own messages, each
in order and told apart by the head of the payload. Only a broadcast reads as JSON, and what
other clients wrote makes no difference. -/
structure Separated (es : List Event) (s : Conversation) (h : ConnectionHdl) : Prop where
  broadcasts : (s.frames h).filter (·.message.isNone) =
    (s.process.server.cast.received h).map fun text => ⟨.text, text⟩
  answers : (s.frames h).filterMap Frame.message = es.filterMap (Event.answered h)
  genuine : ∀ f ∈ s.frames h, ∀ v, Json.Reads f.payload v →
    ∃ d ∈ s.process.shared.updates, f = ⟨.text, d.toJson⟩ ∧ d.json = some v
  alone : ∃ t, machine.run init (es.filter (Event.concerns h)) = some t ∧
    t.process = s.process ∧ t.frames h = s.frames h

theorem separated {es : List Event} {s : Conversation} (hs : machine.run init es = some s)
    (h : ConnectionHdl) : Separated es s h := by
  have hproc := process_of_run hs
  have hinit : Apart h init := rfl
  have hapart : Apart h s := Machine.run_invariant (I := Apart h) step_apart hinit hs
  refine ⟨hapart, ?_, ?_, alone_of_run hs h⟩
  · exact Machine.run_append_filterMap (M := machine)
      (f := fun s => (s.frames h).filterMap Frame.message) (fun hst => answered_step hst h) hs
  · intro f hf v hv
    have hnone : f.message = none := by
      cases hm : f.message with
      | none => rfl
      | some msg =>
        rw [Frame.message_eq_some.mp hm] at hv
        exact absurd ⟨v, hv⟩ msg.not_wellFormed_echo
    have hcast : f ∈ (s.frames h).filter (·.message.isNone) :=
      List.mem_filter.mpr ⟨hf, Option.isNone_iff_eq_none.mpr hnone⟩
    rw [hapart] at hcast
    obtain ⟨text, htext, rfl⟩ := List.mem_map.mp hcast
    obtain ⟨d, hd, rfl⟩ := received_update hproc htext
    refine ⟨d, hd, rfl, ?_⟩
    rcases (CoordinateData.jsonSafe d).sound with ⟨w, hw, hiff⟩ | hbroken
    · rw [hw, (hiff v).mp hv]
    · exact absurd ⟨v, hv⟩ hbroken

/-- Two clients, an update, a message of each, and a tick that broadcasts. -/
def demoEvents : List Event :=
  PublisherProcess.openEvents.map .process ++
    [.onMessage 1 ⟨.text, "one".toList⟩ false, .onMessage 2 ⟨.binary, "two".toList⟩ false] ++
    (PublisherProcess.castEvents fun _ => false).map .process

theorem separated_demo : ∃ s, machine.run init demoEvents = some s ∧
    (s.frames 1).length = 2 ∧
    (s.frames 1).filterMap Frame.message = [⟨.text, "one".toList⟩] ∧
    (s.frames 2).filterMap Frame.message = [⟨.binary, "two".toList⟩] ∧ Separated demoEvents s 1 := by
  obtain ⟨s, hs, hlen⟩ : ∃ s, machine.run init demoEvents = some s ∧ (s.frames 1).length = 2 :=
    ⟨_, rfl, rfl⟩
  exact ⟨s, hs, hlen, (separated hs 1).answers, (separated hs 2).answers, separated hs 1⟩

end Conversation

end CoordinateStream
