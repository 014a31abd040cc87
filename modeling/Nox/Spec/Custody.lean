import Nox.Spec.Collection
import Nox.Spec.Start
import Nox.Spec.Ingest
import Nox.Spec.Routing
import Mathlib.Data.List.Infix

/-!
# An actor's particles are a queue

What an actor holds is its custody: the particle executing, then its mailbox. `ingest`
appends to the mailbox; starting an execution moves the head of the mailbox into the
execution, which leaves the custody as it was; the interpreter finishing changes
nothing in it; and collecting a finished execution takes the head off. The only other
way out is `cleanup`, which drops the whole actor, and only once its deadline has
passed.

The particles a run delivers to an actor are a function of the run: the particle of
each `ingest` call, from outside or from the re-ingest loop of a tick, that passes the
three checks of `ingest`, is for that actor's scope and signature, and for which
`get_or_create_actor` succeeds (`Plumber.deliveredRun`).

So while the clock of no tick has reached an actor's deadline, the actor stays under
its key, and what it holds at the end is what it held at the start followed by the
particles delivered to it, less the oldest ones, no more of them than the executions of
that actor that finished.

## Key results

- `Actor.Follows`: what one actor becomes, with its four changes as lemmas.
- `Plumber.carries_step`: one step of a run, for one key.
- `custody_fifo`: every run.
-/

namespace Nox.Aquamarine

namespace Actor

/-- The particles in the actor's care, oldest first: the one executing, then the mailbox. -/
def custody (a : Actor) : List Particle := (a.current.map (·.particle)).toList ++ a.mailbox

/-- `1` while a finished execution waits to be collected, else `0`. -/
def collectable (a : Actor) : Nat := if a.isCompleted then 1 else 0

/-- `a'` is what became of `a` over steps that delivered `d` to it and in which `b`
    executions of it finished: the deadline is the same, and `a'` holds what `a` held,
    then `d`, less the first `n`; each of the `n` left as a finished execution, one `a`
    had waiting or one of the `b`. -/
structure Follows (a a' : Actor) (d : List Particle) (b : Nat) : Prop where
  deadline : a'.deadline = a.deadline
  custody : ∃ n, n ≤ (a.custody ++ d).length ∧ a'.custody = (a.custody ++ d).drop n ∧
    n + a'.collectable ≤ a.collectable + b

theorem Follows.refl (a : Actor) : a.Follows a [] 0 := ⟨rfl, 0, by simp, by simp, by omega⟩

theorem Follows.trans {a a' a'' : Actor} {d d' : List Particle} {b b' : Nat}
    (h : a.Follows a' d b) (h' : a'.Follows a'' d' b') : a.Follows a'' (d ++ d') (b + b') := by
  obtain ⟨n, hn, hc, hb⟩ := h.custody
  obtain ⟨n', hn', hc', hb'⟩ := h'.custody
  -- what `a'` held, then `d'`, is what `a` held, then `d ++ d'`, less the first `n`
  have hcat : a'.custody ++ d' = (a.custody ++ (d ++ d')).drop n := by
    rw [hc, ← List.append_assoc, List.drop_append_of_le_length hn]
  refine ⟨h'.deadline.trans h.deadline, n + n', ?_, ?_, by omega⟩
  · rw [hcat, List.length_drop] at hn'
    simp only [List.length_append] at hn hn' ⊢
    omega
  · rw [hc', hcat, List.drop_drop]

theorem Follows.mono {a a' : Actor} {d : List Particle} {b b' : Nat} (h : a.Follows a' d b)
    (hb : b ≤ b') : a.Follows a' d b' := by
  obtain ⟨n, hn, hc, hb₀⟩ := h.custody
  exact ⟨h.deadline, n, hn, hc, by omega⟩

/-- `ingest` keeps the execution and appends the particle to the mailbox. -/
theorem follows_ingestWith (a : Actor) (p : Particle) (f : Option ServiceFunction) :
    a.Follows (a.ingestWith p f) [p] 0 := by
  have hc : (a.ingestWith p f).current = a.current := current_ingestWith a p f
  refine ⟨by cases f <;> rfl, 0, Nat.zero_le _, ?_, by simp [collectable, isCompleted, hc]⟩
  simp [custody, hc]

/-- Collecting a finished execution takes the oldest particle off. -/
theorem follows_pollCompleted (a : Actor) : a.Follows a.pollCompleted.2 [] 0 := by
  cases hc : a.isCompleted
  · rw [pollCompleted_of_not_completed hc]; exact .refl a
  · obtain ⟨p, i, out, hcur⟩ := isCompleted_iff.mp hc
    rw [pollCompleted_of_current hcur]
    have hidle : ({ a with current := none } : Actor).isCompleted = false := rfl
    exact ⟨rfl, 1, by simp [custody, hcur], by simp [custody, hcur], by simp [collectable, hc, hidle]⟩

/-- Starting an execution moves the head of the mailbox into it. -/
theorem Started.follows {a a' : Actor} (h : a.Started a') : a.Follows a' [] 0 := by
  obtain ⟨p, rest, i, hc, hm, rfl⟩ := h
  refine ⟨rfl, 0, Nat.zero_le _, ?_, by simp [collectable, isCompleted, hc]⟩
  simp [custody, hc, hm]

/-- The interpreter finishing makes one more execution collectable. -/
theorem follows_avmCompleted (a : Actor) (out : AvmOutcome) :
    a.Follows (a.avmCompleted out) [] 1 := by
  unfold avmCompleted
  split
  · rename_i p i hcur
    refine ⟨rfl, 0, Nat.zero_le _, by simp [custody, hcur], ?_⟩
    simp only [collectable, isCompleted]
    split <;> omega
  · exact (Follows.refl a).mono (Nat.zero_le 1)

end Actor

/-- The step is the interpreter future of the actor under `key` in `sc` finishing. -/
def Action.completes (sc : PeerScope) (key : ActorKey) : Action → Bool
  | .avmCompleted sc' key' _ => decide (sc' = sc ∧ key' = key)
  | _ => false

namespace Plumber

/-! ## The particles a run delivers -/

/-- The call `ingest(p, _, sc')` at `s` puts `p` into the mailbox of the actor under
    `key` in `sc`: it is that actor's call, `p` passes the three checks, and
    `get_or_create_actor` succeeds. -/
def delivers (env : Env) (s : Plumber) (p : Particle) (sc' sc : PeerScope) (key : ActorKey) :
    Bool :=
  decide (sc' = sc ∧ (⟨p.signature⟩ : ActorKey) = key ∧ Admits env p sc') &&
    (s.getOrCreateActor env sc' ⟨p.signature⟩ p).2.isOk

/-- The particles the calls `ingest(p, None, sc')` deliver, one after another from `s`,
    to the actor under `key` in `sc`. -/
def deliveredAll (env : Env) (sc : PeerScope) (key : ActorKey) :
    Plumber → List (Particle × PeerScope) → List Particle
  | _, [] => []
  | s, (p, sc') :: rest =>
    (if s.delivers env p sc' sc key then [p] else []) ++
      deliveredAll env sc key (s.ingest env p none sc') rest

/-- The `ingest(p, None, s)` calls of the re-ingest loop of a tick, in order. -/
def reingestCalls (effects : List LocalRoutingEffects) : List (Particle × PeerScope) :=
  effects.flatMap fun e => e.nextPeers.map (e.particle, ·)

/-- The particles one step delivers to the actor under `key` in `sc`: the particle of an
    `ingest` call, or those of the re-ingest loop of a tick that does not return early. -/
def delivered (env : Env) (s : Plumber) (sc : PeerScope) (key : ActorKey) : Action → List Particle
  | .ingest p _ sc' => if s.delivers env p sc' sc key then [p] else []
  | .poll =>
    match s.pollPools.events with
    | _ :: _ => []
    | [] => deliveredAll env sc key
        ((s.pollPools.collect env).1.cleanup env).pollNextHostMessages.pollNextWorkerMessages
        (reingestCalls (s.pollPools.collect env).2.localEffects)
  | _ => []

/-- The particles a run delivers to the actor under `key` in `sc`, in order. -/
def deliveredRun (s : Plumber) (sc : PeerScope) (key : ActorKey) : List (Env × Action) → List Particle
  | [] => []
  | (env, a) :: rest => s.delivered env sc key a ++ (s.step env a).deliveredRun sc key rest

/-- The re-ingest loop is `ingest` over its calls. -/
private theorem reingest_eq_ingestAll_reingestCalls (env : Env) :
    ∀ (effects : List LocalRoutingEffects) (s : Plumber),
      s.reingest env effects = s.ingestAll env (reingestCalls effects)
  | [], _ => rfl
  | e :: rest, s => by
    simp only [reingest, ingestAll, reingestCalls, List.foldl_cons, List.flatMap_cons,
      List.foldl_append, List.foldl_map]
    exact reingest_eq_ingestAll_reingestCalls env rest _

/-! ## One step -/

section Carry

variable {sc : PeerScope} {key : ActorKey}

/-- Whatever actor `s` has under `key` in `sc`, `s'` has one there that follows it with
    `d` delivered and `b` more completions. -/
def Carries (sc : PeerScope) (key : ActorKey) (d : List Particle) (b : Nat) (s s' : Plumber) :
    Prop :=
  ∀ a, (s.actorsOf sc).get? key = some a →
    ∃ a', (s'.actorsOf sc).get? key = some a' ∧ a.Follows a' d b

theorem Carries.of_eq {s s' : Plumber} (h : s'.actorsOf sc = s.actorsOf sc) :
    Carries sc key [] 0 s s' :=
  fun a ha => ⟨a, h ▸ ha, .refl a⟩

theorem Carries.trans {s₁ s₂ s₃ : Plumber} {d d' : List Particle} {b b' : Nat}
    (h : Carries sc key d b s₁ s₂) (h' : Carries sc key d' b' s₂ s₃) :
    Carries sc key (d ++ d') (b + b') s₁ s₃ := by
  intro a ha
  obtain ⟨a₁, h₁, f₁⟩ := h a ha
  obtain ⟨a₂, h₂, f₂⟩ := h' a₁ h₁
  exact ⟨a₂, h₂, f₁.trans f₂⟩

/-- Carrying with nothing delivered and no completion, then with `d` and `b`. -/
private theorem Carries.nil_trans {s₁ s₂ s₃ : Plumber} {d : List Particle} {b : Nat}
    (h : Carries sc key [] 0 s₁ s₂) (h' : Carries sc key d b s₂ s₃) : Carries sc key d b s₁ s₃ := by
  simpa using h.trans h'

private theorem carries_modifyActor_self (s : Plumber) {f : Actor → Actor} {d : List Particle}
    {b : Nat} (hf : ∀ a : Actor, a.Follows (f a) d b) :
    Carries sc key d b s (s.modifyActor sc key f) := by
  intro a ha
  rw [actorsOf_modifyActor, if_pos rfl, HashMap.get?_modify, if_pos rfl, ha]
  exact ⟨_, rfl, hf a⟩

private theorem carries_modifyActor_other (s : Plumber) {sc' : PeerScope} {key' : ActorKey}
    {f : Actor → Actor} (h : ¬ (sc' = sc ∧ key' = key)) :
    Carries sc key [] 0 s (s.modifyActor sc' key' f) := by
  intro a ha
  rw [actorsOf_modifyActor]
  split
  · subst_vars
    rw [HashMap.get?_modify, if_neg fun hk => h ⟨rfl, hk.symm⟩]
    exact ⟨a, ha, .refl a⟩
  · exact ⟨a, ha, .refl a⟩

theorem carries_ingest (env : Env) (s : Plumber) (p : Particle) (f : Option ServiceFunction)
    (sc' : PeerScope) :
    Carries sc key (if s.delivers env p sc' sc key then [p] else []) 0 s (s.ingest env p f sc') := by
  by_cases hadm : Admits env p sc'
  · -- past the checks: `get_or_create_actor` keeps every actor, then `p` goes to its own
    have hc : Carries sc key [] 0 s (s.getOrCreateActor env sc' ⟨p.signature⟩ p).1 :=
      fun a ha => ⟨a, getOrCreateActor_get? env s sc' _ p ha, .refl a⟩
    rw [ingest_of_admits hadm]
    cases hok : (s.getOrCreateActor env sc' ⟨p.signature⟩ p).2 with
    | error e =>
      rw [if_neg (by simp [delivers, hok, Except.isOk, Except.toBool])]
      exact hc
    | ok u =>
      dsimp only
      by_cases hsame : sc' = sc ∧ (⟨p.signature⟩ : ActorKey) = key
      · obtain ⟨rfl, rfl⟩ := hsame
        rw [if_pos (by simp [delivers, hadm, hok, Except.isOk, Except.toBool])]
        exact hc.nil_trans (carries_modifyActor_self _ fun a => Actor.follows_ingestWith a p f)
      · rw [if_neg (by simp only [delivers, decide_eq_true_eq, Bool.and_eq_true]; tauto)]
        exact hc.trans (carries_modifyActor_other _ hsame)
  · -- turned away by a check: no actor changes
    rw [if_neg (by simp [delivers, hadm])]
    exact .of_eq (actorsOf_ingest_of_not_admits f hadm sc)

/-- The calls of a re-ingest loop deliver what `deliveredAll` says. -/
theorem carries_ingestAll (env : Env) :
    ∀ (calls : List (Particle × PeerScope)) (s : Plumber),
      Carries sc key (deliveredAll env sc key s calls) 0 s (s.ingestAll env calls)
  | [], _ => .of_eq rfl
  | (p, sc') :: rest, s =>
    (carries_ingest env s p none sc').trans (carries_ingestAll env rest (s.ingest env p none sc'))

/-- A pass over the buckets that visits each with its pool carries every actor when
    its body does. -/
private theorem carries_mapAccumWith {R : Type} (g : R → WorkerId → Actors → VmPool → R × Actors × VmPool)
    (hg : ∀ r r' w b p, (g r w b p).2 = (g r' w b p).2)
    (hb : ∀ r w b pool a, b.get? key = some a →
      ∃ a', (g r w b pool).2.1.get? key = some a' ∧ a.Follows a' [] 0)
    (r : R) (s : Plumber) :
    Carries sc key [] 0 s { s with
      workerActors := (s.workerActors.mapAccumWith g r s.workerVmPools).2.1,
      workerVmPools := (s.workerActors.mapAccumWith g r s.workerVmPools).2.2 } := by
  intro a ha
  cases sc with
  | host => exact ⟨a, ha, .refl a⟩
  | workerId w =>
    have hw := HashMap.get?_mapAccumWith g hg r s.workerActors s.workerVmPools w
    simp only [actorsOf] at ha ⊢
    cases hbw : s.workerActors.get? w with
    | none => simp [hbw] at ha
    | some bucket =>
      rw [hbw, Option.getD_some] at ha
      cases hp : s.workerVmPools.get? w <;> simp only [hbw, hp, Prod.mk.injEq] at hw <;> rw [hw.1]
      · exact ⟨a, ha, .refl a⟩
      · exact hb r w bucket _ a ha

/-- The collection phase: each actor is as `poll_completed` leaves it, or untouched. -/
theorem carries_collect (env : Env) (s : Plumber) : Carries sc key [] 0 s (s.collect env).1 := by
  have hpoll : ∀ (r : Routing) (m : Actors) (pool : VmPool) a, m.get? key = some a →
      ∃ a', (pollActors env r m pool).2.1.get? key = some a' ∧ a.Follows a' [] 0 := by
    intro r m pool a ha
    rw [pollActors_actors, HashMap.get?_mapValues, ha]
    exact ⟨_, rfl, Actor.follows_pollCompleted a⟩
  have h₁ : Carries sc key [] 0 s (s.pollHostActors env ⟨[], []⟩).1 := by
    intro a ha
    cases sc with
    | host => exact hpoll _ _ _ a ha
    | workerId w => exact ⟨a, ha, .refl a⟩
  exact h₁.trans (carries_mapAccumWith _ (fun r r' _ b p => pollActors_snd_eq env r r' b p)
    (fun r _ b pool => hpoll r b pool) _ _)

/-- `cleanup` keeps an actor that has not expired, as it is. -/
theorem carries_cleanup (env : Env) (s : Plumber) {a : Actor} (ha : (s.actorsOf sc).get? key = some a)
    (hlive : a.isExpired env.now = false) : ((s.cleanup env).actorsOf sc).get? key = some a := by
  rcases cleanup_cases env s with ⟨_, _, _, he⟩ | ⟨_, hpass⟩
  · rwa [he]
  · have hmem : (sc, key, a) ∈ ({ s with cleanupFuture := none } : Plumber).actorList :=
      mem_actorList_iff.mpr ha
    rcases List.mem_append.mp (hpass.perm.subset hmem) with h | h
    · exact mem_actorList_iff.mp h
    · -- every victim is eligible, and an actor that has not expired is not
      have he := (List.mem_filter.mp (List.mem_of_mem_take h)).2
      simp [Actor.cleanupEligible, hlive] at he

/-- Starting executions: each actor is as it was, or has started. -/
theorem carries_pollNextActors {m : Actors} (pool : VmPool) {a : Actor} (ha : m.get? key = some a) :
    ∃ a', (pollNextActors m pool).1.get? key = some a' ∧ a.Follows a' [] 0 := by
  obtain ⟨a', ha'⟩ : ∃ a', (pollNextActors m pool).1.get? key = some a' := by
    have hk : (pollNextActors m pool).1.containsKey key = true := by
      rw [HashMap.containsKey_of_keys_eq (keys_pollNextActors m pool)]
      simp [HashMap.containsKey, ha]
    exact Option.isSome_iff_exists.mp hk
  obtain ⟨a₀, h₀, hrel⟩ := (pollNextActors_spec m pool).actors key a' ha'
  rw [ha, Option.some.injEq] at h₀
  subst h₀
  rcases hrel with rfl | hs
  · exact ⟨_, ha', .refl _⟩
  · exact ⟨_, ha', hs.follows⟩

theorem carries_startAndRoute (env : Env) (s : Plumber) (routing : Routing) :
    Carries sc key (deliveredAll env sc key s.pollNextHostMessages.pollNextWorkerMessages
      (reingestCalls routing.localEffects)) 0 s (s.startAndRoute env routing) := by
  have h₁ : Carries sc key [] 0 s s.pollNextHostMessages := by
    intro a ha
    cases sc with
    | host => exact carries_pollNextActors _ ha
    | workerId w => exact ⟨a, ha, .refl a⟩
  have h₂ : Carries sc key [] 0 s s.pollNextHostMessages.pollNextWorkerMessages :=
    h₁.nil_trans (carries_mapAccumWith (fun _ _ actors pool => ((), pollNextActors actors pool))
      (fun _ _ _ _ _ => rfl) (fun _ _ _ pool _ ha => carries_pollNextActors pool ha) () _)
  have h₃ := h₂.nil_trans (carries_ingestAll env (reingestCalls routing.localEffects) _)
  rw [← reingest_eq_ingestAll_reingestCalls] at h₃
  -- queuing the remote effects leaves every actor where it was
  simpa using h₃.trans (.of_eq (by cases sc <;> rfl))

/-- A tick whose clock has not reached the actor's deadline keeps the actor, as one that
    follows it with what the tick's re-ingest loop delivers. -/
theorem carries_poll (env : Env) (s : Plumber) {a : Actor} (ha : (s.actorsOf sc).get? key = some a)
    (hlive : a.isExpired env.now = false) :
    ∃ a', (((s.poll env).2).actorsOf sc).get? key = some a' ∧
      a.Follows a' (s.delivered env sc key .poll) 0 := by
  simp only [poll_eq, delivered]
  cases s.pollPools.events with
  | cons e rest => exact ⟨a, ha, .refl a⟩
  | nil =>
    obtain ⟨a₁, h₁, f₁⟩ := carries_collect env s.pollPools a ha
    have h₂ := carries_cleanup env _ h₁ (by simpa only [Actor.isExpired, f₁.deadline] using hlive)
    obtain ⟨a₃, h₃, f₃⟩ := carries_startAndRoute env _ _ a₁ h₂
    exact ⟨a₃, h₃, by simpa using f₁.trans f₃⟩

/-- One step of a run, for the actor under `key` in `sc`: kept, as one that follows it
    with what the step delivers, and with one more completion when the step is its
    interpreter finishing. -/
theorem carries_step (env : Env) (s : Plumber) (act : Action) {a : Actor}
    (ha : (s.actorsOf sc).get? key = some a) (hlive : act = .poll → a.isExpired env.now = false) :
    ∃ a', ((s.step env act).actorsOf sc).get? key = some a' ∧
      a.Follows a' (s.delivered env sc key act) (if act.completes sc key then 1 else 0) := by
  cases act with
  | ingest p f sc' => exact carries_ingest env s p f sc' a ha
  | poll => exact carries_poll env s ha (hlive rfl)
  | createWorkerPool w n => exact Carries.of_eq rfl a ha
  | removeWorkerPool w => exact Carries.of_eq rfl a ha
  | vmCreated sc' i => exact Carries.of_eq (by cases sc' <;> rfl) a ha
  | avmCompleted sc' key' out =>
    by_cases hsame : sc' = sc ∧ key' = key
    · obtain ⟨rfl, rfl⟩ := hsame
      simpa [Action.completes] using
        carries_modifyActor_self s (fun a => Actor.follows_avmCompleted a out) a ha
    · simpa [Action.completes, hsame] using carries_modifyActor_other s hsame a ha
  | cleanupCompleted => exact Carries.of_eq rfl a ha

/-! ## Every run -/

/-- Every run whose ticks come before the actor's deadline keeps the actor, as one that
    follows it with what the run delivers and the run's completions of it. -/
theorem carries_run (trace : List (Env × Action)) : ∀ (s : Plumber) (a : Actor),
    (s.actorsOf sc).get? key = some a → (∀ env, (env, Action.poll) ∈ trace → a.isExpired env.now = false) →
    ∃ a', ((s.run trace).actorsOf sc).get? key = some a' ∧
      a.Follows a' (s.deliveredRun sc key trace) (trace.countP fun e => e.2.completes sc key) := by
  induction trace with
  | nil => exact fun s a ha _ => ⟨a, ha, .refl a⟩
  | cons e rest ih =>
    intro s a ha hlive
    obtain ⟨env, act⟩ := e
    obtain ⟨a₁, h₁, f₁⟩ := carries_step env s act ha fun h => hlive env (h ▸ List.mem_cons_self _ _)
    obtain ⟨a₂, h₂, f₂⟩ := ih _ a₁ h₁ fun env' he => by
      simpa only [Actor.isExpired, f₁.deadline] using hlive env' (List.mem_cons_of_mem _ he)
    refine ⟨a₂, h₂, (f₁.trans f₂).mono ?_⟩
    rw [List.countP_cons]
    dsimp only
    omega

end Carry

end Plumber

open Plumber in
/-- An actor's particles form a queue. Over every run whose ticks all come before the
    actor's deadline, the actor stays under its key, and what it holds at the end is what
    it held at the start followed by the particles the run delivered to it, less the `n`
    oldest; `n` is at most the executions of the actor that finished: the one waiting at
    the start, if any, and one per completion of its interpreter in the run. -/
theorem custody_fifo (s : Plumber) (sc : PeerScope) (key : ActorKey) (a : Actor)
    (ha : (s.actorsOf sc).get? key = some a) (trace : List (Env × Action))
    (hlive : ∀ env, (env, Action.poll) ∈ trace → a.isExpired env.now = false) :
    ∃ a', ((s.run trace).actorsOf sc).get? key = some a' ∧
      ∃ n, n ≤ (if a.isCompleted then 1 else 0) + trace.countP (fun e => e.2.completes sc key) ∧
        a'.custody = (a.custody ++ s.deliveredRun sc key trace).drop n := by
  obtain ⟨a', ha', hf⟩ := carries_run trace s a ha hlive
  obtain ⟨n, -, hc, hn⟩ := hf.custody
  exact ⟨a', ha', n, by unfold Actor.collectable at hn; omega, hc⟩

/-- The host actor of `probeParticle` with the particle twice in its mailbox, and one
    free VM. -/
def twoMailState : Plumber :=
  (Plumber.new (VmPool.new 1)).run
    [(permissiveEnv, .vmCreated .host 0), (permissiveEnv, .ingest probeParticle none .host),
     (permissiveEnv, .ingest probeParticle none .host)]

/-- The actor `twoMailState` holds. -/
def twoMailActor : Actor :=
  ((Actor.new probeParticle 0 [1] 0 none (.root 0)).ingest probeParticle).ingest probeParticle

/-- A tick starts the first particle, its interpreter finishes, one more particle comes,
    and a tick collects the first and starts the second. -/
def twoMailTrace : List (Env × Action) :=
  [(permissiveEnv, .poll), (permissiveEnv, .avmCompleted .host ⟨[1]⟩ ⟨[], true⟩),
   (permissiveEnv, .ingest probeParticle none .host), (permissiveEnv, .poll)]

theorem custody_fifo_twoMail :
    (twoMailState.actorsOf .host).get? ⟨[1]⟩ = some twoMailActor ∧
      (∀ env, (env, Action.poll) ∈ twoMailTrace → twoMailActor.isExpired env.now = false) ∧
      ∃ a', ((twoMailState.run twoMailTrace).actorsOf .host).get? ⟨[1]⟩ = some a' ∧
        ∃ n, n ≤ (if twoMailActor.isCompleted then 1 else 0) +
            twoMailTrace.countP (fun e => e.2.completes .host ⟨[1]⟩) ∧
          a'.custody =
            (twoMailActor.custody ++ twoMailState.deliveredRun .host ⟨[1]⟩ twoMailTrace).drop n := by
  have ha : (twoMailState.actorsOf .host).get? ⟨[1]⟩ = some twoMailActor := by decide
  have hlive : ∀ env, (env, Action.poll) ∈ twoMailTrace →
      twoMailActor.isExpired env.now = false := by
    intro env h
    simp only [twoMailTrace, List.mem_cons, Prod.mk.injEq, List.mem_nil_iff] at h
    rcases h with ⟨rfl, -⟩ | ⟨-, h⟩ | ⟨-, h⟩ | ⟨rfl, -⟩ | h
    all_goals first | decide | cases h
  exact ⟨ha, hlive, custody_fifo twoMailState .host ⟨[1]⟩ twoMailActor ha _ hlive⟩

end Nox.Aquamarine
