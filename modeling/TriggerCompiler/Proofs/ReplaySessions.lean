import TriggerCompiler.Proofs.FinishedCode
import TriggerCompiler.Proofs.ReplayEmission

/-! Sessions of a replayed event. Each broadcast is on its way to the owner of the object and to every
other client, and the values of the owner's counter are on their way beside the broadcasts: they arrive in
any order, more than once or not at all, and before or behind the occurrences that they count. A client
never runs the body more than twice for a broadcast, and it may come to that; it runs the body at most
once for each broadcast if no value of the counter overtakes an occurrence that it counts. -/

open Relation

namespace TriggerCompiler

open ControlFlow

variable {final heap : Heap Value} {occurrences : Nat}

namespace Replay

/-- What the owner of an object and one of the other clients have done, and what is on its way to them. -/
structure Session where
  /-- How often the event has been broadcast. -/
  broadcasts : Nat := 0
  /-- The occurrences that have not reached the owner, and those that have not reached the client. -/
  toOwner : Nat := 0
  toClient : Nat := 0
  /-- The values of the counter that the owner has sent. -/
  sent : List Value := []
  owner : Heap Value
  client : Heap Value
  /-- How often the client has run the body. -/
  runs : Nat := 0

namespace Session

/-- The occurrences that the owner has counted. -/
def counted (s : Session) : Nat := s.broadcasts - s.toOwner

/-- The occurrences that the client has received or missed. -/
def arrived (s : Session) : Nat := s.broadcasts - s.toClient

/-- One step of a session. A value of the counter may be received whenever the network lets it. -/
inductive Step (c : Code) (body : Heap Value → Heap Value) (lets : Session → Value → Prop)
    (s : Session) : Session → Prop
  | broadcast : Step c body lets s { s with
      broadcasts := s.broadcasts + 1, toOwner := s.toOwner + 1, toClient := s.toClient + 1 }
  | counts {n times : Nat} {final : Heap Value} (hn : s.toOwner = n + 1)
      (h : Ends (machine c true body) c.replay ⟨c.replay, [], s.owner⟩ times final) :
      Step c body lets s { s with toOwner := n, owner := final }
  | sends : Step c body lets s { s with sent := s.owner c.counter :: s.sent }
  | arrives {n times : Nat} {final : Heap Value} (hn : s.toClient = n + 1)
      (h : Ends (machine c false body) c.replay ⟨c.replay, [], s.client⟩ times final) :
      Step c body lets s { s with toClient := n, client := final, runs := s.runs + times }
  | misses {n : Nat} (hn : s.toClient = n + 1) : Step c body lets s { s with toClient := n }
  | receives {v : Value} {times : Nat} {final : Heap Value} (hv : v ∈ s.sent) (hlets : lets s v)
      (h : Ends (machine c false body) c.catchUp
        ⟨c.catchUp, [], Function.update s.client c.counter v⟩ times final) :
      Step c body lets s { s with client := final, runs := s.runs + times }

/-- The sessions that a session leads to. -/
def Leads (c : Code) (body : Heap Value → Heap Value) (lets : Session → Value → Prop) :
    Session → Session → Prop := ReflTransGen (Step c body lets)

/-- A network that lets everything through. -/
def AnyTime (_ : Session) (_ : Value) : Prop := True

/-- A network in which no value of the counter overtakes an occurrence that it counts. -/
def InTime (s : Session) (v : Value) : Prop := ∃ n ≤ s.arrived, v = .int (.ofNat n)

variable {c : Code} {body : Heap Value → Heap Value} {lets : Session → Value → Prop} {s s' : Session}

/-- The numbers of a session fit its heaps. -/
structure Valid (c : Code) (s : Session) : Prop where
  toOwner : s.toOwner ≤ s.broadcasts
  toClient : s.toClient ≤ s.broadcasts
  owner : ∃ k, Counts c s.owner s.counted k
  client : ∃ n, Counts c s.client n s.runs
  sent {v : Value} : v ∈ s.sent → ∃ n ≤ s.counted, v = .int (.ofNat n)
  runs : s.runs ≤ s.arrived + s.counted

/-- What a step does to the number of runs. -/
inductive Effect (lets : Session → Value → Prop) (s s' : Session) : Prop
  | none (hruns : s'.runs = s.runs) (harrived : s.arrived ≤ s'.arrived)
  | ran (hruns : s'.runs = s.runs + 1) (harrived : s'.arrived = s.arrived + 1)
  | caughtUp {n : Nat} (hn : n ≤ s.counted) (hlets : lets s (.int (.ofNat n)))
      (hruns : s'.runs = max s.runs n) (harrived : s'.arrived = s.arrived)

theorem ofNat_inj {a b : Nat} (ha : a < 2 ^ 31) (hb : b < 2 ^ 31)
    (h : Value.int (.ofNat a) = .int (.ofNat b)) : a = b := by
  have hint := congrArg Int32.toInt (Value.int.inj h)
  rwa [Int32.toInt_ofNat_of_lt ha, Int32.toInt_ofNat_of_lt hb, Int.ofNat_inj] at hint

theorem exists_of_replay {owns : Bool} {runs times : Nat}
    (hc : c.Apart) (hbody : Spares c body) (hcounts : Counts c heap occurrences runs)
    (h : Ends (machine c owns body) c.replay ⟨c.replay, [], heap⟩ times final) :
    times = 1 ∧ Counts c final (if owns then occurrences + 1 else occurrences) (runs + 1) := by
  obtain ⟨final', hends, hfinal⟩ := @ends_replay c owns body heap occurrences runs hc hbody hcounts
  obtain ⟨rfl, rfl⟩ := h.unique hends
  exact ⟨rfl, hfinal⟩

/-- A catch-up. -/
theorem exists_of_catchUp {n runs times : Nat}
    (hc : c.Apart) (hbody : Spares c body) (hn : n < 2 ^ 31) (hruns : runs < 2 ^ 31)
    (hcounts : Counts c heap occurrences runs)
    (h : Ends (machine c false body) c.catchUp
      ⟨c.catchUp, [], Function.update heap c.counter (.int (.ofNat n))⟩ times final) :
    times = n - runs ∧ Counts c final n (max runs n) := by
  obtain ⟨final', hends, hfinal⟩ := ends_catchUp hc hbody hn hruns (hcounts.receive hc n)
  obtain ⟨rfl, rfl⟩ := h.unique hends
  exact ⟨rfl, hfinal⟩

/-- A step changes the numbers as it should, as long as they do not overflow. -/
theorem Step.effect (hc : c.Apart) (hbody : Spares c body) (hvalid : s.Valid c)
    (hsmall : 2 * s.broadcasts < 2 ^ 31) (h : Step c body lets s s') :
    s'.Valid c ∧ Effect lets s s' := by
  obtain ⟨htoOwner, htoClient, ⟨k, howner⟩, ⟨n, hclient⟩, hsent, hruns⟩ := hvalid
  have harrived : s.arrived = s.broadcasts - s.toClient := rfl
  have hcounted : s.counted = s.broadcasts - s.toOwner := rfl
  cases h with
  | broadcast =>
    have hsame : s.broadcasts + 1 - (s.toOwner + 1) = s.counted := by omega
    refine ⟨⟨?_, ?_, ⟨k, ?_⟩, ⟨n, hclient⟩, fun {v} hv => ?_, ?_⟩, .none rfl ?_⟩
    · exact Nat.succ_le_succ htoOwner
    · exact Nat.succ_le_succ htoClient
    · rw [counted, hsame]
      exact howner
    · rw [counted, hsame]
      exact hsent hv
    all_goals simp only [arrived, counted]; omega
  | @counts m times final hm h =>
    obtain ⟨-, hfinal⟩ := exists_of_replay hc hbody howner h
    have hmore : s.broadcasts - m = s.counted + 1 := by omega
    refine ⟨⟨?_, htoClient, ⟨_, hmore ▸ hfinal⟩, ⟨n, hclient⟩, fun hv => ?_, ?_⟩, .none rfl ?_⟩
    · show m ≤ s.broadcasts
      omega
    · obtain ⟨j, hj, rfl⟩ := hsent hv
      exact ⟨j, show j ≤ s.broadcasts - m by omega, rfl⟩
    all_goals simp only [arrived, counted]; omega
  | sends =>
    refine ⟨⟨htoOwner, htoClient, ⟨k, howner⟩, ⟨n, hclient⟩, fun hv => ?_, hruns⟩,
      .none rfl (Nat.le_refl _)⟩
    rcases List.mem_cons.mp hv with rfl | hv
    · exact ⟨s.counted, Nat.le_refl _, howner.counter⟩
    · exact hsent hv
  | @arrives m times final hm h =>
    obtain ⟨rfl, hfinal⟩ := exists_of_replay hc hbody hclient h
    have hmore : s.broadcasts - m = s.arrived + 1 := by omega
    refine ⟨⟨htoOwner, ?_, ⟨k, howner⟩, ⟨n, hfinal⟩, hsent, ?_⟩, .ran rfl hmore⟩
    all_goals simp only [arrived, counted]; omega
  | @misses m hm =>
    refine ⟨⟨htoOwner, ?_, ⟨k, howner⟩, ⟨n, hclient⟩, hsent, ?_⟩, .none rfl ?_⟩
    all_goals simp only [arrived, counted]; omega
  | receives hv hlets h =>
    obtain ⟨j, hj, rfl⟩ := hsent hv
    obtain ⟨rfl, hfinal⟩ := exists_of_catchUp hc hbody (by omega) (by omega) hclient h
    have hmax : s.runs + (j - s.runs) = max s.runs j := by omega
    refine ⟨⟨htoOwner, htoClient, ⟨k, howner⟩, ⟨j, hmax ▸ hfinal⟩, hsent, ?_⟩,
      .caughtUp hj hlets hmax rfl⟩
    show s.runs + (j - s.runs) ≤ s.arrived + s.counted
    omega

theorem Step.broadcasts_le (h : Step c body lets s s') : s.broadcasts ≤ s'.broadcasts := by
  cases h with
  | broadcast => exact Nat.le_succ _
  | _ => exact Nat.le_refl _

/-- A session stays valid, as long as its numbers do not overflow. -/
theorem Leads.valid (hc : c.Apart) (hbody : Spares c body) (hvalid : s.Valid c)
    (h : Leads c body lets s s') (hsmall : 2 * s'.broadcasts < 2 ^ 31) : s'.Valid c := by
  induction h with
  | refl => exact hvalid
  | tail _ hlast ih =>
    have hle := hlast.broadcasts_le
    exact (hlast.effect hc hbody (ih (by omega)) (by omega)).1

/-- If no value of the counter overtakes an occurrence, the client runs the body at most once for each
occurrence that it has received or missed. -/
theorem Leads.runs_le_arrived (hc : c.Apart) (hbody : Spares c body) (hvalid : s.Valid c)
    (hstart : s.runs ≤ s.arrived) (h : Leads c body InTime s s')
    (hsmall : 2 * s'.broadcasts < 2 ^ 31) : s'.runs ≤ s'.arrived := by
  induction h with
  | refl => exact hstart
  | @tail mid last hbefore hlast ih =>
    have hle := hlast.broadcasts_le
    have hruns := ih (by omega)
    have hmid := Leads.valid hc hbody hvalid hbefore (by omega)
    have harrived : mid.arrived = mid.broadcasts - mid.toClient := rfl
    have hcounted : mid.counted = mid.broadcasts - mid.toOwner := rfl
    obtain ⟨-, heffect⟩ := hlast.effect hc hbody hmid (by omega)
    cases heffect with
    | none hsame harrived => omega
    | ran hran harrived => omega
    | @caughtUp n hn hlets hmax harrived =>
      obtain ⟨m, hm, hvalue⟩ := hlets
      have hnm := ofNat_inj (by omega) (by omega) hvalue
      omega

/-! ### Sessions that go on -/

section Progress

variable (hc : c.Apart) (hbody : Spares c body) (hvalid : s.Valid c)

include hc hbody hvalid

theorem exists_arrives {n : Nat} (hn : s.toClient = n + 1) : ∃ s', Step c body lets s s' ∧
    s'.broadcasts = s.broadcasts ∧ s'.toClient = n ∧ s'.runs = s.runs + 1 := by
  obtain ⟨k, hclient⟩ := hvalid.client
  obtain ⟨final, hends, -⟩ := @ends_replay c false body _ _ _ hc hbody hclient
  exact ⟨_, .arrives hn hends, rfl, rfl, rfl⟩

theorem exists_counts {n : Nat} (hn : s.toOwner = n + 1) : ∃ s', Step c body lets s s' ∧
    s'.broadcasts = s.broadcasts ∧ s'.toOwner = n ∧ s'.toClient = s.toClient ∧ s'.runs = s.runs := by
  obtain ⟨k, howner⟩ := hvalid.owner
  obtain ⟨final, hends, -⟩ := @ends_replay c true body _ _ _ hc hbody howner
  exact ⟨_, .counts hn hends, rfl, rfl, rfl, rfl⟩

variable (hsmall : 2 * s.broadcasts < 2 ^ 31)

include hsmall

/-- The client runs the body as often as it is behind a value of the counter that reaches it. -/
theorem exists_receives {v : Value} (hv : v ∈ s.sent) (hlets : lets s v) :
    ∃ n s', v = .int (.ofNat n) ∧ n ≤ s.counted ∧ Step c body lets s s' ∧
      s'.broadcasts = s.broadcasts ∧ s'.toClient = s.toClient ∧ s'.runs = max s.runs n := by
  obtain ⟨n, hn, rfl⟩ := hvalid.sent hv
  obtain ⟨k, hclient⟩ := hvalid.client
  have hruns := hvalid.runs
  have harrived : s.arrived = s.broadcasts - s.toClient := rfl
  have hcounted : s.counted = s.broadcasts - s.toOwner := rfl
  obtain ⟨final, hends, -⟩ := ends_catchUp hc hbody (show n < 2 ^ 31 by omega) (by omega)
    (hclient.receive hc n)
  refine ⟨n, _, rfl, hn, .receives hv hlets hends, rfl, rfl, ?_⟩
  show s.runs + (n - s.runs) = max s.runs n
  omega

/-- All occurrences reach the owner. -/
theorem exists_leads_counts : ∃ s', Leads c body lets s s' ∧ s'.broadcasts = s.broadcasts ∧
    s'.toOwner = 0 ∧ s'.toClient = s.toClient ∧ s'.runs = s.runs := by
  induction hn : s.toOwner generalizing s with
  | zero => exact ⟨s, .refl, rfl, hn, rfl, rfl⟩
  | succ n ih =>
    obtain ⟨mid, hstep, hbroadcasts, htoOwner, htoClient, hruns⟩ := exists_counts hc hbody hvalid hn
    obtain ⟨s', hleads, hbroadcasts', hzero, htoClient', hruns'⟩ :=
      ih (hstep.effect hc hbody hvalid hsmall).1 (hbroadcasts ▸ hsmall) htoOwner
    exact ⟨s', .head hstep hleads, hbroadcasts'.trans hbroadcasts, hzero,
      htoClient'.trans htoClient, hruns'.trans hruns⟩

/-- All occurrences reach the client. -/
theorem exists_leads_arrives : ∃ s', Leads c body lets s s' ∧ s'.broadcasts = s.broadcasts ∧
    s'.runs = s.runs + s.toClient := by
  induction hn : s.toClient generalizing s with
  | zero => exact ⟨s, .refl, rfl, rfl⟩
  | succ n ih =>
    obtain ⟨mid, hstep, hbroadcasts, htoClient, hruns⟩ := exists_arrives hc hbody hvalid hn
    obtain ⟨s', hleads, hbroadcasts', hruns'⟩ :=
      ih (hstep.effect hc hbody hvalid hsmall).1 (hbroadcasts ▸ hsmall) htoClient
    exact ⟨s', .head hstep hleads, hbroadcasts'.trans hbroadcasts, by omega⟩

end Progress

theorem leads_broadcasts (s : Session) (n : Nat) : Leads c body lets s { s with
    broadcasts := s.broadcasts + n, toOwner := s.toOwner + n, toClient := s.toClient + n } := by
  induction n with
  | zero => exact .refl
  | succ n ih => exact .tail ih .broadcast

theorem valid_start {owner client : Heap Value} (howner : Counts c owner 0 0)
    (hclient : Counts c client 0 0) : Valid c { owner, client } :=
  ⟨Nat.le_refl _, Nat.le_refl _, ⟨0, howner⟩, ⟨0, hclient⟩, nofun, Nat.le_refl _⟩

/-- If the last value of the counter arrives before all occurrences, the client runs the body twice for
each of them. -/
theorem exists_twice (hc : c.Apart) (hbody : Spares c body) {owner client : Heap Value}
    (howner : Counts c owner 0 0) (hclient : Counts c client 0 0) {n : Nat}
    (hsmall : 2 * n < 2 ^ 31) :
    ∃ s, Leads c body AnyTime { owner, client } s ∧ s.broadcasts = n ∧ s.runs = 2 * n := by
  have hsent := @leads_broadcasts c body AnyTime { owner, client } n
  simp only [Nat.zero_add] at hsent
  have hvalid := Leads.valid hc hbody (valid_start howner hclient) hsent hsmall
  obtain ⟨s₁, hcounts, hbroadcasts₁, htoOwner₁, htoClient₁, hruns₁⟩ :=
    @exists_leads_counts c body AnyTime _ hc hbody hvalid hsmall
  have hsmall₁ : 2 * s₁.broadcasts < 2 ^ 31 := hbroadcasts₁ ▸ hsmall
  have hvalid₁ := Leads.valid hc hbody hvalid hcounts hsmall₁
  have hsends : Step c body AnyTime s₁ { s₁ with sent := s₁.owner c.counter :: s₁.sent } := .sends
  have hvalid₂ := (hsends.effect hc hbody hvalid₁ hsmall₁).1
  obtain ⟨k, howner₁⟩ := hvalid₁.owner
  obtain ⟨m, s₃, hm, hle, hreceives, hbroadcasts₃, htoClient₃, hruns₃⟩ :=
    @exists_receives c body AnyTime _ hc hbody hvalid₂ hsmall₁ _ List.mem_cons_self trivial
  have hsmall₃ : 2 * s₃.broadcasts < 2 ^ 31 := hbroadcasts₃ ▸ hsmall₁
  have hvalid₃ := (hreceives.effect hc hbody hvalid₂ hsmall₁).1
  obtain ⟨s₄, harrives, hbroadcasts₄, hruns₄⟩ :=
    @exists_leads_arrives c body AnyTime _ hc hbody hvalid₃ hsmall₃
  have hcounted : s₁.counted = n := by
    rw [counted, hbroadcasts₁, htoOwner₁]
    rfl
  have hmn : m = n := by
    refine ofNat_inj (Nat.lt_of_le_of_lt hle ?_) (by omega) (hm.symm.trans ?_)
    · show s₁.counted < 2 ^ 31
      omega
    · rw [howner₁.counter, hcounted]
  refine ⟨s₄, hsent.trans (hcounts.trans (.head hsends (.head hreceives harrives))), ?_, ?_⟩
  · exact hbroadcasts₄.trans (hbroadcasts₃.trans hbroadcasts₁)
  · have htoClient : s₃.toClient = n := htoClient₃.trans htoClient₁
    have hruns : s₃.runs = n := by
      rw [hruns₃, hmn]
      show max s₁.runs n = n
      rw [hruns₁]
      exact Nat.zero_max n
    omega

/-- What the sessions behind a start come to, as long as the numbers do not overflow. -/
structure Outcomes (c : Code) (body : Heap Value → Heap Value) (start : Session) : Prop where
  /-- The client runs the body at most twice for a broadcast. -/
  le_twice : ∀ s, Leads c body AnyTime start s → 2 * s.broadcasts < 2 ^ 31 →
    s.runs ≤ 2 * s.broadcasts
  /-- The bound is attained, for any number of broadcasts. -/
  twice : ∀ n, 2 * n < 2 ^ 31 → ∃ s, Leads c body AnyTime start s ∧ s.broadcasts = n ∧ s.runs = 2 * n
  /-- The client runs the body at most once for a broadcast, if the values of the counter arrive in
  time. -/
  le_once : ∀ s, Leads c body InTime start s → 2 * s.broadcasts < 2 ^ 31 → s.runs ≤ s.broadcasts
  /-- An occurrence that arrives is run. -/
  arrives : ∀ s, Leads c body AnyTime start s → 2 * s.broadcasts < 2 ^ 31 → 0 < s.toClient →
    ∃ s', Step c body AnyTime s s' ∧ s'.toClient + 1 = s.toClient ∧ s'.runs = s.runs + 1
  /-- After a value of the counter has arrived, the client has run the body at least as often as it
  says. -/
  receives : ∀ s, Leads c body AnyTime start s → 2 * s.broadcasts < 2 ^ 31 → ∀ v ∈ s.sent,
    ∃ n s', v = .int (.ofNat n) ∧ Step c body AnyTime s s' ∧ s'.toClient = s.toClient ∧
      s'.runs = max s.runs n

theorem outcomes (hc : c.Apart) (hbody : Spares c body) {owner client : Heap Value}
    (howner : Counts c owner 0 0) (hclient : Counts c client 0 0) :
    Outcomes c body { owner, client } where
  le_twice s hleads hsmall := by
    have hruns := (Leads.valid hc hbody (valid_start howner hclient) hleads hsmall).runs
    rw [arrived, counted] at hruns
    omega
  twice n hsmall := exists_twice hc hbody howner hclient hsmall
  le_once s hleads hsmall :=
    (Leads.runs_le_arrived hc hbody (valid_start howner hclient) (Nat.le_refl _) hleads hsmall).trans
      (Nat.sub_le _ _)
  arrives s hleads hsmall htoClient := by
    obtain ⟨n, hn⟩ := Nat.exists_eq_add_one_of_ne_zero htoClient.ne_zero
    have hvalid := Leads.valid hc hbody (valid_start howner hclient) hleads hsmall
    obtain ⟨s', hstep, -, htoClient, hruns⟩ := exists_arrives hc hbody hvalid hn
    exact ⟨s', hstep, by rw [htoClient, hn], hruns⟩
  receives s hleads hsmall v hv := by
    have hvalid := Leads.valid hc hbody (valid_start howner hclient) hleads hsmall
    obtain ⟨n, s', hn, -, hstep, -, htoClient, hruns⟩ :=
      @exists_receives c body AnyTime s hc hbody hvalid hsmall v hv trivial
    exact ⟨n, s', hn, hstep, htoClient, hruns⟩

end Session

end Replay

/-! ### Sessions of compiled programs -/

/-- A heap holds the values of its layout. -/
def HeapEntry.Loaded (entries : List HeapEntry) (heap : Heap Value) : Prop :=
  ∀ entry ∈ entries, heap entry.name = entry.default

theorem HeapEntry.exists_loaded {entries : List HeapEntry} (h : (entries.map HeapEntry.name).Nodup) :
    ∃ heap, Loaded entries heap := by
  refine ⟨fun x => ((entries.find? (·.name = x)).map HeapEntry.default).getD .null, fun entry hmem => ?_⟩
  cases hfound : entries.find? (·.name = entry.name) with
  | none => exact absurd (List.find?_eq_none.mp hfound entry hmem) (by simp)
  | some found =>
    have hname : found.name = entry.name := by simpa using List.find?_some hfound
    have hsame := List.inj_on_of_nodup_map h (List.mem_of_find?_eq_some hfound) hmem hname
    show ((entries.find? _).map HeapEntry.default).getD _ = _
    rw [hfound, hsame]
    rfl

namespace Context

variable {ctx : Context}

theorem exists_loaded (hctx : ctx.Proper) (h : ctx.compile.compiled.isSuccess = true) :
    ∃ heap, HeapEntry.Loaded ctx.compile.compiled.heapDefaults heap := by
  obtain ⟨e, report, q, -, hrun, hfinish, -, hcompiled⟩ := exists_artifact h
  have he : ctx.emitted = e := congrArg Prod.snd hrun
  have hq : ((Program.finish ctx.source.data.sync ctx.settings).run ctx.emitted.program).2 = q := by
    rw [he, hfinish]
  have hend : ctx.PassesThrough q.symbols := hq ▸ .finishing (Program.FinishSteps.finish _ _ _)
  rw [hcompiled]
  refine HeapEntry.exists_loaded ?_
  show ((q.symbols.toList.map _).map _).Nodup
  rw [List.map_map]
  exact hend.distinctNames hctx

/-- The finished program has the emitted code, with addresses, and the heap starts with the emitted
values. -/
theorem exists_finished (hctx : ctx.Proper) (h : ctx.compile.compiled.isSuccess = true) :
    ∃ q address, ctx.compile.compiled.finished = some q ∧
      (∀ {x code}, code <:+: ctx.emitted.codeOf x →
        code.map (Instruction.fillIn address) <:+: q.methods.codeOf x) ∧
      ∀ {name kind value heap}, ctx.emitted.Holds name kind value → kind ≠ .system →
        HeapEntry.Loaded ctx.compile.compiled.heapDefaults heap → heap name = value.fillIn address := by
  obtain ⟨e, report, q, -, hrun, hfinish, -, hcompiled⟩ := exists_artifact h
  obtain rfl : ctx.emitted = e := congrArg Prod.snd hrun
  have ha := hctx.apart_emitted
  refine ⟨q, ctx.emitted.program.finalAddress ctx.source.data.sync ctx.settings, by rw [hcompiled]; rfl,
    fun {x code} hpart => ?_, fun {name kind value heap} hholds hkind hheap => ?_⟩
  · obtain ⟨before, behind, hx, -⟩ := Program.exists_code_of_finish ha.consistent.toGrounded hfinish x
    rw [hx]
    exact (hpart.map _).trans ⟨before, behind, rfl⟩
  · obtain ⟨id, v, hv, rfl, rfl, rfl⟩ := hholds
    have hq := OrderedMap.get?_eq_some_iff.mp
      (Program.get?_of_finish ⟨ha.consistent, ha.proper⟩ hfinish hv hkind)
    rw [hcompiled] at hheap
    exact hheap _ (List.mem_map_of_mem hq)

theorem counts_loaded {c : Replay.Code} {event : Nat} {body : String}
    (hctx : ctx.Proper) (h : ctx.compile.compiled.isSuccess = true) (hc : c.In event body ctx.emitted)
    (hheap : HeapEntry.Loaded ctx.compile.compiled.heapDefaults heap) : Replay.Counts c heap 0 0 := by
  obtain ⟨q, address, -, -, hvalue⟩ := exists_finished hctx h
  exact ⟨hvalue hc.counter (by decide) hheap, hvalue hc.executed (by decide) hheap,
    hvalue hc.one (by decide) hheap⟩

end Context

/-- **Runs of a replayed event.** The code of an event that is broadcast to all clients and replayed in
full stands in the finished program. Whatever order the occurrences and the values of the counter arrive
in, a client that does not own the object runs the body at most twice for a broadcast, and for any number
of broadcasts there is an order in which it does so; it runs the body at most once for a broadcast if no
value of the counter overtakes an occurrence that it counts. -/
theorem replayed_runs {cache : ModuleCache} (hcache : cache.Produced) (source : ProgramSource)
    (settings : Settings)
    (hok : (compileProgram source .builtin cache settings).compiled.isSuccess = true) {i : Nat}
    {event : EventDecl} (hevent : source.data.events[i]? = some event)
    (hbroadcast : event.options.broadcast = .all) (hreplay : event.options.replay = .all) :
    let ctx : Context := { source, catalogue := .builtin, modules := cache, settings }
    let compiled := (compileProgram source .builtin cache settings).compiled
    Emit.IsBroadcast ctx.emitted i s!"ev{i}__replay" ∧
    (∃ c : Replay.Code, c.In i s!"ev{i}__body" ctx.emitted) ∧
    (∃ heap, HeapEntry.Loaded compiled.heapDefaults heap) ∧
    ∃ q address, compiled.finished = some q ∧
      ∀ c : Replay.Code, c.In i s!"ev{i}__body" ctx.emitted →
        (c.replay.flatMap Item.code).map (Instruction.fillIn address) <:+:
          q.methods.codeOf s!"ev{i}__replay" ∧
        (c.catchUp.flatMap Item.code).map (Instruction.fillIn address) <:+:
          q.methods.codeOf Emit.deserializationHook ∧
        ∀ body, Replay.Spares c body → ∀ owner client,
          HeapEntry.Loaded compiled.heapDefaults owner → HeapEntry.Loaded compiled.heapDefaults client →
          Replay.Session.Outcomes c body { owner, client } := by
  have hctx := hcache.context source settings
  intro ctx compiled
  obtain ⟨hsent, hcode⟩ := @Context.exists_replay ctx hctx hok i event hevent hbroadcast hreplay
  obtain ⟨q, address, hq, hfinished, -⟩ := @Context.exists_finished ctx hctx hok
  refine ⟨hsent, hcode, @Context.exists_loaded ctx hctx hok, q, address, hq, fun c hc => ?_⟩
  refine ⟨hfinished hc.replay, hfinished hc.catchUp, fun body hbody owner client howner hclient => ?_⟩
  exact Replay.Session.outcomes hc.apart hbody (Context.counts_loaded hctx hok hc howner)
    (Context.counts_loaded hctx hok hc hclient)

/-- A program that logs on all clients, also on those that come late. -/
def replayedLog : ProgramSource where
  key := "p"
  data :=
    { events := [
        { trigger := .builtin "Interact" []
          options := { broadcast := .all, replay := .all }
          actions := [.primitive "debug_log" [.constant (.str "hi")]] }] }

theorem replayedLog_isSuccess :
    (compileProgram replayedLog .builtin .empty {}).compiled.isSuccess = true := by
  decide +kernel

/-- The program has the code of a replayed event, and the sessions of two clients that load its heap come
to what they should. -/
theorem replayed_runs_replayedLog :
    let ctx : Context := { source := replayedLog, catalogue := .builtin, modules := .empty, settings := {} }
    let compiled := (compileProgram replayedLog .builtin .empty {}).compiled
    compiled.isSuccess = true ∧ ∃ (c : Replay.Code) (heap : Heap Value),
      c.In 0 "ev0__body" ctx.emitted ∧ HeapEntry.Loaded compiled.heapDefaults heap ∧
      Replay.Session.Outcomes c id { owner := heap, client := heap } := by
  obtain ⟨-, ⟨c, hc⟩, ⟨heap, hheap⟩, q, address, -, houtcomes⟩ :=
    @replayed_runs _ ModuleCache.produced_empty replayedLog {} replayedLog_isSuccess 0 _ rfl rfl rfl
  obtain ⟨-, -, hsessions⟩ := houtcomes c hc
  have hname : s!"ev{0}__body" = "ev0__body" := by decide
  rw [hname] at hc
  exact ⟨replayedLog_isSuccess, c, heap, hc, hheap,
    hsessions id (fun _ _ _ => rfl) heap heap hheap hheap⟩

/-- The event is broadcast once, the value of the counter arrives before the occurrence, and the client
runs the body twice. -/
theorem replayedLog_runs_twice :
    let ctx : Context := { source := replayedLog, catalogue := .builtin, modules := .empty, settings := {} }
    ctx.compile.compiled.isSuccess = true ∧
    ∃ (c : Replay.Code) (heap : Heap Value) (s : Replay.Session),
      c.In 0 "ev0__body" ctx.emitted ∧ HeapEntry.Loaded ctx.compile.compiled.heapDefaults heap ∧
      Replay.Session.Leads c id Replay.Session.AnyTime { owner := heap, client := heap } s ∧
      s.broadcasts = 1 ∧ s.runs = 2 := by
  intro ctx
  have hok : ctx.compile.compiled.isSuccess = true := replayedLog_isSuccess
  have hctx : ctx.Proper := ModuleCache.produced_empty.context replayedLog {}
  obtain ⟨-, c, hc⟩ := @Context.exists_replay ctx hctx hok 0 _ rfl rfl rfl
  obtain ⟨heap, hheap⟩ := Context.exists_loaded hctx hok
  have hcounts := Context.counts_loaded hctx hok hc hheap
  obtain ⟨s, hleads, hbroadcasts, hruns⟩ := @Replay.Session.exists_twice c id hc.apart
    (fun _ _ _ => rfl) _ _ hcounts hcounts 1 (by decide)
  have hname : s!"ev{0}__body" = "ev0__body" := by decide
  rw [hname] at hc
  exact ⟨hok, c, heap, s, hc, hheap, hleads, hbroadcasts, hruns⟩

end TriggerCompiler
