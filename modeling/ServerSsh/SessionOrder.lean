import ServerSsh.EndOfInput
import ServerSsh.KeyAgreement
import ServerSsh.Transition

/-!
# The order of a session

A session is to set up its keys, log the user in, and only then connect the
client with the shell.  The login is written, `User_login` in `users.c`, and
`Administraitor` does not call it: right after the key set-up it forks the
receiver, the sender and the shell.

The machine below is an administrator from its client on, in both modes.  The
receiver and the sender are loops of `EndOfInput`, each with its own copy of the
connection record.  What the shell does with its input is left open: the sender
may read anything.  `after_login_iff` says that the order is kept only by the
runs in which nothing comes through.
-/

namespace ServerSsh

open Libc Transition

namespace SessionOrder

/-- What happens in a session, as far as the order is about it. -/
inductive Event where
  /-- `User_login` has returned success for the user of the session. -/
  | userLogin
  /-- The receiver has passed a message on to the shell. -/
  | toShell (call : Output)
  /-- The sender has passed the C string that it read from the shell on to the
  client. -/
  | toClient (output : Bytes) (call : Output)

/-- Where an administrator stands. -/
inductive Phase where
  | waiting (bfd : Connection)
  | greeted (bfd : Connection) (g : Server.Greeted)
  /-- The receiver and the sender, unless they have stopped. -/
  | running (receiver sender : Option Connection)
  | stopped

/-- An administrator, with the events of its session, the last one first. -/
structure State where
  phase : Phase
  log : List Event

def initial (bfd : Connection) : State := ⟨.waiting bfd, []⟩

/-- What may happen. -/
inductive Action where
  /-- `accept` returns in TCP mode, the first `recvfrom` in UDP mode. -/
  | connect (client : SockaddrIn) (connFd : Int)
  /-- The read of the answer. -/
  | answer (a : Arrival)
  /-- The receiver reads.  `goesOn` tells whether it goes on after an empty
  message. -/
  | message (a : Arrival) (goesOn : Bool)
  /-- The sender reads from the shell. -/
  | shellOutput (a : Arrival)

/-- What does not change. -/
structure Config extends Surroundings where
  rand1 : UInt32
  rand2 : UInt32
  aligned : message % 16 = 0

/-- The key set-up from an answer. -/
def keysOf (mode : Mode) (bfd : Connection) (g : Server.Greeted) (a : Arrival) :
    Except Fault Connection := do
  let keys ← Server.readAnswer mode bfd g a
  keySetUp keys.bfd keys.K1 keys.K2

/-- `Preparing_numeral_keys` up to its read. -/
def greetClient (cfg : Config) (bfd : Connection) : Phase :=
  match Server.greet cfg.mode bfd cfg.rand1 cfg.rand2 with
  | .ok g => .greeted bfd g
  | .error _ => .stopped

/-- The rest of the key set-up, and the forks. -/
def setUp (cfg : Config) (bfd : Connection) (g : Server.Greeted) (a : Arrival) : Phase :=
  match keysOf cfg.mode bfd g a with
  | .ok session => .running (some session) (some session)
  | .error _ => .stopped

/-- An iteration of the receiver. -/
def receiveMessage (cfg : Config) (s : State) (receiver : Connection) (sender : Option Connection)
    (a : Arrival) (goesOn : Bool) : State :=
  let r := Loop.shellInput.iterate cfg.toSurroundings receiver a
  match r.2 with
  | .ok call => ⟨.running (some r.1) sender, .toShell call :: s.log⟩
  | .error _ => { s with phase := .running (if goesOn then some r.1 else none) sender }

/-- An iteration of the sender. -/
def sendOutput (cfg : Config) (s : State) (receiver : Option Connection) (sender : Connection)
    (a : Arrival) : State :=
  let r := Loop.shellOutput.iterate cfg.toSurroundings sender a
  match r.2 with
  | .ok call => ⟨.running receiver (some r.1), .toClient (cut (Arrival.data a)) call :: s.log⟩
  | .error _ => { s with phase := .running receiver none }

/-- A step of an administrator. -/
def step (cfg : Config) (s : State) : Action → Option State
  | .connect client connFd =>
      match s.phase with
      | .waiting bfd =>
          some { s with phase := greetClient cfg { bfd with client := client, connFd := connFd } }
      | _ => none
  | .answer a =>
      match s.phase with
      | .greeted bfd g => some { s with phase := setUp cfg bfd g a }
      | _ => none
  | .message a goesOn =>
      match s.phase with
      | .running (some receiver) sender => some (receiveMessage cfg s receiver sender a goesOn)
      | _ => none
  | .shellOutput a =>
      match s.phase with
      | .running receiver (some sender) => some (sendOutput cfg s receiver sender a)
      | _ => none

/-! ## The order -/

/-- Bytes of the client reach the shell, or bytes of the shell the client. -/
def Event.Exchanges : Event → Prop
  | userLogin => False
  | toShell call => call.Sends
  | toClient output call => output ≠ [] ∧ call.data ≠ []

/-- Everything that is exchanged, is exchanged after the login. -/
def AfterLogin : List Event → Prop
  | [] => True
  | e :: earlier => (e.Exchanges → Event.userLogin ∈ earlier) ∧ AfterLogin earlier

/-- Output of the shell that comes through to the client: it is not empty, it has a
terminator, its ciphertext too, and the ciphertext does not start with it. -/
structure Shown (E : Evp.Cipher) (bfd : Connection) (a : Arrival) : Prop where
  nonempty : cut (Arrival.data a) ≠ []
  terminated : Arrival.Terminated a
  fits : 0 ∈ ciphertext E bfd (cut (Arrival.data a)) ∨
    (ciphertext E bfd (cut (Arrival.data a))).length < maxCommandLenght
  starts : (ciphertext E bfd (cut (Arrival.data a))).head? ≠ some 0

/-- Nothing comes through: what the receiver reads has no message, and what the
sender reads is not shown. -/
def Silent (cfg : Config) (s : State) : Action → Prop
  | .message a _ => ∀ receiver sender, s.phase = .running (some receiver) sender →
      ¬ Readable cfg.toSurroundings receiver a
  | .shellOutput a => ∀ receiver sender, s.phase = .running receiver (some sender) →
      ¬ Shown cfg.E sender a
  | _ => True

/-! ## What a step does to the log -/

/-- The sender passes on what is shown. -/
theorem shellOutput_iff (e : Surroundings) (bfd : Connection) (a : Arrival) :
    (∃ call, (Loop.shellOutput.iterate e bfd a).2 = .ok call ∧
      (Event.toClient (cut (Arrival.data a)) call).Exchanges) ↔ Shown e.E bfd a := by
  have hcut : cut (Arrival.chunk a).buffer.bytes = cut (Arrival.data a) := Buf.cut_ofBytes _
  have h0 : 0 ∈ (Arrival.chunk a).buffer.bytes ↔ Arrival.Terminated a := Buf.zero_mem_ofBytes _
  have hiter : (Loop.shellOutput.iterate e bfd a).2
      = (sendMessageTo bfd.client e.E e.mode bfd (Arrival.chunk a).buffer).map Sent.call := rfl
  rw [hiter]
  constructor
  · rintro ⟨call, hcall, hne, hdata⟩
    obtain ⟨sent, hsent, rfl⟩ := map_eq_ok.mp hcall
    obtain ⟨hterm, hfits, rfl⟩ := sendMessageTo_ok hsent
    rw [hcut] at hfits hdata
    rw [Output.data_of, cut_ciphertext_ne_nil_iff] at hdata
    exact ⟨hne, h0.mp hterm, hfits, hdata⟩
  · intro h
    rw [sendMessageTo_eq, hcut]
    dsimp only
    rw [if_pos ⟨h0.mpr h.terminated, h.fits⟩]
    refine ⟨_, rfl, h.nonempty, ?_⟩
    rw [Output.data_of, cut_ciphertext_ne_nil_iff]
    exact h.starts

/-- An iteration of a loop logs its event exactly when there is a call, and the
event exchanges something exactly under the condition for the loop. -/
theorem log_iteration (event : Output → Event) {r : Except Fault Output} {right : Prop}
    {log log' : List Event} (hne : ∀ call, event call ≠ .userLogin)
    (hiff : (∃ call, r = .ok call ∧ (event call).Exchanges) ↔ right)
    (hok : ∀ call, r = .ok call → log' = event call :: log)
    (herror : ∀ f, r = .error f → log' = log) :
    (log' = log ∧ ¬ right) ∨
      ∃ e, log' = e :: log ∧ e ≠ .userLogin ∧ (e.Exchanges ↔ right) := by
  cases r with
  | ok call =>
      refine Or.inr ⟨event call, hok call rfl, hne call, Iff.trans ?_ hiff⟩
      exact ⟨fun h => ⟨call, rfl, h⟩, fun ⟨_, hcall, h⟩ => Except.ok.inj hcall ▸ h⟩
  | error f =>
      refine Or.inl ⟨herror f rfl, fun hr => ?_⟩
      obtain ⟨call, hcall, -⟩ := hiff.mpr hr
      cases hcall

/-- A step adds nothing to the log, or an event that exchanges something exactly
when the step is not silent. -/
theorem step_log {cfg : Config} {s s' : State} {a : Action} (hs : step cfg s a = some s') :
    (s'.log = s.log ∧ Silent cfg s a) ∨
      ∃ e, s'.log = e :: s.log ∧ e ≠ .userLogin ∧ (e.Exchanges ↔ ¬ Silent cfg s a) := by
  cases a with
  | connect client connFd =>
      rw [step] at hs
      split at hs <;> cases hs
      exact Or.inl ⟨rfl, trivial⟩
  | answer a =>
      rw [step] at hs
      split at hs <;> cases hs
      exact Or.inl ⟨rfl, trivial⟩
  | message a goesOn =>
      rw [step] at hs
      split at hs
      next receiver sender hp =>
        cases hs
        have hsilent : Silent cfg s (.message a goesOn) ↔
            ¬ Readable cfg.toSurroundings receiver a := by
          simp [Silent, hp]
        have hiff := Loop.shellInput.forwards_iterate_iff cfg.aligned receiver a
        rw [hsilent, not_not]
        refine log_iteration .toShell (by simp) hiff (fun call hcall => ?_) fun f hf => ?_
        · simp only [receiveMessage, hcall]
        · simp only [receiveMessage, hf]
      next => cases hs
  | shellOutput a =>
      rw [step] at hs
      split at hs
      next receiver sender hp =>
        cases hs
        have hsilent : Silent cfg s (.shellOutput a) ↔ ¬ Shown cfg.E sender a := by
          simp [Silent, hp]
        have hiff := shellOutput_iff cfg.toSurroundings sender a
        rw [hsilent, not_not]
        refine log_iteration (.toClient (cut (Arrival.data a))) (by simp) hiff
          (fun call hcall => ?_) fun f hf => ?_
        · simp only [sendOutput, hcall]
        · simp only [sendOutput, hf]
      next => cases hs

/-! ## Runs -/

theorem step_userLogin {cfg : Config} {s s' : State} {a : Action}
    (h : Event.userLogin ∉ s.log) (hs : step cfg s a = some s') : Event.userLogin ∉ s'.log := by
  rcases step_log hs with ⟨he, -⟩ | ⟨e, he, hne, -⟩
  · rwa [he]
  · rw [he, List.mem_cons, not_or]
    exact ⟨hne.symm, h⟩

/-- No session logs anybody in. -/
theorem userLogin_notMem {cfg : Config} {ok : State → Action → Prop} {bfd : Connection} {s : State}
    (h : Reachable (step cfg) ok (initial bfd) s) : Event.userLogin ∉ s.log :=
  h.invariant (P := fun s => Event.userLogin ∉ s.log) (by simp [initial])
    fun hp _ hs => step_userLogin hp hs

theorem step_afterLogin {cfg : Config} {s s' : State} {a : Action}
    (hlogin : Event.userLogin ∉ s.log) (hs : step cfg s a = some s') :
    AfterLogin s'.log ↔ AfterLogin s.log ∧ Silent cfg s a := by
  rcases step_log hs with ⟨he, hsilent⟩ | ⟨e, he, -, hiff⟩
  · rw [he]
    exact ⟨fun h => ⟨h, hsilent⟩, And.left⟩
  · rw [he, AfterLogin, hiff, and_comm]
    refine and_congr_right fun _ => ?_
    exact ⟨fun h => by_contra fun hn => hlogin (h hn), fun h hn => absurd h hn⟩

/-- The order is kept exactly by the runs in which nothing comes through. -/
theorem after_login_iff {cfg : Config} {bfd : Connection} {s : State}
    (h : Reachable (step cfg) Any (initial bfd) s) :
    AfterLogin s.log ↔ Reachable (step cfg) (Silent cfg) (initial bfd) s := by
  refine h.iff_of_exact (P := fun s => AfterLogin s.log) (fun hr => ?_) ?_ ?_
  · have hboth := hr.invariant (P := fun s => Event.userLogin ∉ s.log ∧ AfterLogin s.log)
      ⟨by simp [initial], by simp [initial, AfterLogin]⟩ fun hp hok hs =>
        ⟨step_userLogin hp.1 hs, (step_afterLogin hp.1 hs).mpr ⟨hp.2, hok⟩⟩
    exact hboth.2
  · exact fun hr hs hp => ((step_afterLogin (userLogin_notMem hr) hs).mp hp).1
  · exact fun hr hs hp => ((step_afterLogin (userLogin_notMem hr) hs).mp hp).2

/-! ## A session -/

/-- A session sets its keys up from any answer, and nothing comes through until
then. -/
theorem sets_up (cfg : Config) (bfd : Connection) (client : SockaddrIn) (connFd : Int) {p : Packet}
    {B1 B2 : UInt64} (h1 : B1.toNat < 2 ^ 31) (h2 : B2.toNat < 2 ^ 31)
    (hp : p.data = answerText B1 B2) :
    ∃ s session, Reachable (step cfg) (Silent cfg) (initial bfd) s ∧ s.log = [] ∧
      s.phase = .running (some session) (some session) ∧
        session.key = keyBuf (power B1 (exponent cfg.rand1)) (power B2 (exponent cfg.rand2)) ∧
          session.iv = ivBuf (power B1 (exponent cfg.rand1)) (power B2 (exponent cfg.rand2)) := by
  let bfd' : Connection := { bfd with client := client, connFd := connFd }
  obtain ⟨g, hgreet, hg1, hg2⟩ : ∃ g, greetClient cfg bfd' = .greeted bfd' g ∧
      g.a1 = exponent cfg.rand1 ∧ g.a2 = exponent cfg.rand2 := by
    unfold greetClient
    rw [greet_eq]
    exact ⟨_, rfl, rfl, rfl⟩
  obtain ⟨session, hset, hkey, hiv⟩ : ∃ session,
      setUp cfg bfd' g (some p) = .running (some session) (some session) ∧
      session.key = keyBuf (power B1 g.a1) (power B2 g.a2) ∧
        session.iv = ivBuf (power B1 g.a1) (power B2 g.a2) := by
    unfold setUp keysOf
    rw [Server.readAnswer_eq _ _ _ h1 h2 hp, ok_bind, keySetUp_eq]
    exact ⟨_, rfl, rfl, rfl⟩
  rw [hg1, hg2] at hkey hiv
  have hconnect : step cfg (initial bfd) (.connect client connFd)
      = some ⟨.greeted bfd' g, []⟩ := congrArg (fun ph => some (State.mk ph [])) hgreet
  have hanswer : step cfg ⟨.greeted bfd' g, []⟩ (.answer (some p))
      = some ⟨.running (some session) (some session), []⟩ :=
    congrArg (fun ph => some (State.mk ph [])) hset
  have hsilent : Silent cfg (initial bfd) (.connect client connFd) ∧
      Silent cfg ⟨.greeted bfd' g, []⟩ (.answer (some p)) := ⟨trivial, trivial⟩
  have hr := Reachable.refl.tail hsilent.1 hconnect
  exact ⟨_, session, hr.tail hsilent.2 hanswer, rfl, rfl, hkey, hiv⟩

theorem sampleMessage_aligned : 0x555555559010 % 16 = 0 := by decide

/-- The administrator of the sample session, with 1 for both its exponents. -/
def sampleConfig : Config where
  E := sampleCipher
  mode := .tcp
  message := 0x555555559010
  toShChanel := 6
  rand1 := 1
  rand2 := 1
  aligned := sampleMessage_aligned

/-- An answer that leads to the numbers of the sample session. -/
def sampleAnswer : Packet :=
  ⟨answerText 3827876 20912969, sampleBfd.client, (answerText_fits 3827876 20912969).le⟩

theorem sets_up_sample :
    ∃ s session, Reachable (step sampleConfig) (Silent sampleConfig) (initial sampleBfd) s ∧
      s.log = [] ∧ s.phase = .running (some session) (some session) ∧
        sessionCtx session = sessionCtx sampleSession := by
  obtain ⟨s, session, hr, hlog, hphase, hkey, hiv⟩ := sets_up sampleConfig sampleBfd
    sampleBfd.client 4 (p := sampleAnswer) (by decide) (by decide) rfl
  have h1 : power 3827876 (exponent sampleConfig.rand1) = 3827876 := by decide
  have h2 : power 20912969 (exponent sampleConfig.rand2) = 20912969 := by decide
  rw [h1, h2] at hkey hiv
  exact ⟨s, session, hr, hlog, hphase, sessionCtx_congr hkey hiv⟩

/-- A session in which both loops have read nothing, and the sender has sent an empty
message for that. -/
theorem after_login_iff_sample :
    ∃ s : State, (∃ call, Event.toClient [] call ∈ s.log) ∧ AfterLogin s.log := by
  obtain ⟨s, session, hr, -, hphase, -⟩ := sets_up_sample
  have hrelay := Server.relayOutput_nil sampleConfig.E sampleConfig.mode session
    (c := Arrival.chunk none) rfl
  have hmessage : ¬ Readable sampleConfig.toSurroundings session none := fun h => by
    refine h.text ?_
    rw [received, Arrival.data, cut_nil, Evp.Cipher.decipher_of_lt _ _ (by decide), cut_nil]
  have hread : Silent sampleConfig s (.message none true) := by
    rintro receiver sender hp
    rw [hphase] at hp
    cases hp
    exact hmessage
  let s₁ := receiveMessage sampleConfig s session (some session) none true
  have hstep : step sampleConfig s (.message none true) = some s₁ := by rw [step, hphase]
  have hphase₁ : ∃ receiver, s₁.phase = .running receiver (some session) := by
    unfold s₁ receiveMessage
    dsimp only
    split
    · exact ⟨_, rfl⟩
    · exact ⟨_, rfl⟩
  obtain ⟨receiver, hphase₁⟩ := hphase₁
  have houtput : Silent sampleConfig s₁ (.shellOutput none) := fun _ _ _ h => h.nonempty rfl
  have hstep₁ : step sampleConfig s₁ (.shellOutput none)
      = some (sendOutput sampleConfig s₁ receiver session none) := by rw [step, hphase₁]
  have hr₂ := (hr.tail hread hstep).tail houtput hstep₁
  refine ⟨_, ?_, (after_login_iff hr₂.any).mpr hr₂⟩
  rw [sendOutput, Loop.iterate, hrelay]
  exact ⟨_, List.mem_cons_self ..⟩

/-- The first thing that a client sends after its answer is the command `id`, and the
shell gets it. -/
theorem command_before_login :
    ¬ ∀ (cfg : Config) (bfd : Connection) (s : State),
      Reachable (step cfg) Any (initial bfd) s → AfterLogin s.log := by
  intro hclaim
  obtain ⟨s, session, hr, hlog, hphase, hctx⟩ := sets_up_sample
  have hlt := (ciphertext_length_lt_iff sampleCipher sampleSession (ascii "id\n")).mpr (by decide)
  let p : Packet := ⟨ciphertext sampleCipher sampleSession (ascii "id\n"), sampleBfd.client, hlt.le⟩
  have hread : Readable sampleConfig.toSurroundings session (some p) := by
    refine ⟨Or.inr hlt, ?_⟩
    have hrec := received_ciphertext sampleCipher hctx.symm (by decide) ciphertext_id
    exact (congrArg (· ≠ []) hrec).mpr (by decide)
  have hstep : ∃ s', step sampleConfig s (.message (some p) true) = some s' := by
    rw [step, hphase]
    exact ⟨_, rfl⟩
  obtain ⟨s', hs⟩ := hstep
  have h := hclaim _ _ _ (hr.any.tail trivial hs)
  rw [step_afterLogin (by simp [hlog]) hs] at h
  exact h.2 session (some session) hphase hread

end SessionOrder

end ServerSsh
