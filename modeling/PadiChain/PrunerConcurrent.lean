import PadiChain.PrunerKeeps

/-! The pruner beside block imports. An import holds the chain's lock, queues the nodes and the code of
its state in a batch, which the tracker records, writes the batch, and moves the head. The pruner reads
the head under the same lock and takes its other steps at any time. What the mark has not seen is kept
because its write was tracked; that fails for a key that is queued again between the last look at the
tracked writes and its deletion, and for a state that shares nodes with one that is not kept. -/

namespace PadiChain.Prune

open Core Processor Reach Trie Chain List

/-- What one state commit writes: all of the new state that is not part of the parent's state. -/
structure Commit (content : StateContent) where
  parent : Hash
  root : Hash
  queue : List Key
  covers : ∀ k ∈ stateKeys content root, k ∈ stateKeys content parent ∨ k ∈ queue
  decodable : Decodable content parent → Decodable content root

/-- An import under way: the keys still to be queued, the batch, and whether it was written. -/
structure Import (content : StateContent) where
  block : Block
  commit : Commit content
  pending : List Key
  batch : List Key
  written : Bool

/-- Where the run of the pruner stands. -/
inductive Phase where
  | idle
  | tracking
  | marking (pending : List Hash) (reachable : Finset Key)
  | sweeping (reachable recent : Finset Key)
  | collected (doomed : List Key)
  | deleting (doomed : List Key)
  | finished
  deriving DecidableEq

namespace Phase

def Pruning : Phase → Prop
  | marking _ _ | sweeping _ _ | collected _ | deleting _ => True
  | _ => False

def Chosen : Phase → Prop
  | idle | tracking => False
  | _ => True

def Tracks : Phase → Prop
  | idle | finished => False
  | _ => True

def pending : Phase → List Hash
  | marking pending _ => pending
  | _ => []

def doomed : Phase → List Key
  | deleting doomed => doomed
  | _ => []

end Phase

/-- The chain, its store and tracker, the import that holds the lock, and the pruner. `live` is a
history of the states the run keeps: those it has marked and those imported since. -/
structure System (content : StateContent) where
  chain : BlockChain
  store : Store
  tracker : Tracker
  importing : Option (Import content)
  phase : Phase
  live : List Hash

inductive ImportAction (content : StateContent) where
  | start (now : Nat) (block : Block) (commit : Commit content)
  | queue
  | write
  | moveHead
  | abort

inductive PruneAction where
  | startTracking
  | chooseRoots
  | markRoot
  | readWritten
  | collect
  | recheck
  | flush
  deriving DecidableEq

inductive Action (content : StateContent) where
  | importer (a : ImportAction content)
  | pruner (a : PruneAction)

namespace System

variable {content : StateContent} (env : Env) (config : PruneConfig) (s : System content)

def head : Hash := s.chain.current.header.stateRoot

def putKeys (store : Store) (batch : List Key) : Store := batch.filter (fun key => key ∉ store) ++ store

def stepImport : ImportAction content → System content
  | .start now block commit =>
    match s.importing, s.chain.checkBlock env now block, openTrie content.toContent s.store commit.parent with
    | none, .ok parent, .ok _ =>
      if commit.parent = parent.header.stateRoot then
        { s with importing := some ⟨block, commit, commit.queue, [], false⟩ }
      else s
    | _, _, _ => s
  | .queue =>
    match s.importing with
    | none => s
    | some i =>
      match i.pending with
      | [] => s
      | key :: rest =>
        { s with
          tracker := s.tracker.record key
          importing := some { i with pending := rest, batch := i.batch ++ [key] } }
  | .write =>
    match s.importing with
    | none => s
    | some i =>
      if i.pending = [] then
        { s with
          store := putKeys s.store i.batch
          importing := some { i with batch := [], written := true } }
      else s
  | .moveHead =>
    match s.importing with
    | none => s
    | some i =>
      if i.written then
        if i.commit.root = i.block.header.stateRoot then
          { s with
            chain := (s.chain.adopt env i.block).2
            importing := none
            live := i.commit.root :: s.live }
        else { s with importing := none }
      else s
  | .abort => { s with importing := none }

def stepPrune : PruneAction → System content
  | .startTracking =>
    match s.phase with
    | .idle => { s with tracker := s.tracker.startTracking, phase := .tracking }
    | _ => s
  | .chooseRoots =>
    -- `CurrentBlock` waits for the lock that an import holds
    match s.phase, s.importing with
    | .tracking, none => { s with phase := .marking (retainedRoots config s.chain) ∅, live := [] }
    | _, _ => s
  | .markRoot =>
    match s.phase with
    | .marking (root :: rest) reachable =>
      match Prune.markRoot content s.store root reachable with
      | .error _ => { s with phase := .finished, tracker := s.tracker.stopTracking }
      | .ok reachable =>
        { s with
          phase := .marking rest reachable
          live := match openTrie content.toContent s.store root with
            | .ok _ => root :: s.live
            | .error _ => s.live }
    | _ => s
  | .readWritten =>
    match s.phase with
    | .marking [] reachable => { s with phase := .sweeping reachable s.tracker.written }
    | _ => s
  | .collect =>
    match s.phase with
    | .sweeping reachable recent => { s with phase := .collected (Prune.collect reachable recent s.store).1 }
    | _ => s
  | .recheck =>
    match s.phase with
    | .collected doomed => { s with phase := .deleting (doomed.filter fun key => key ∉ s.tracker.written) }
    | _ => s
  | .flush =>
    match s.phase with
    | .deleting [] => { s with phase := .finished, tracker := s.tracker.stopTracking }
    | .deleting (key :: rest) =>
      { s with
        store := deleteKeys s.store ((key :: rest).take batchSize)
        phase := .deleting ((key :: rest).drop batchSize) }
    | _ => s

def step (s : System content) : Action content → System content
  | .importer a => s.stepImport env a
  | .pruner a => s.stepPrune config a

/-- The run will not delete the key: it is marked, its write is tracked, or it belongs to a root that is
still to be marked. -/
def Protected (k : Key) : Prop :=
  match s.phase with
  | .marking pending reachable =>
    k ∈ reachable ∨ k ∈ s.tracker.written ∨ ∃ root ∈ pending, Opens content s.store root ∧ k ∈ stateKeys content root
  | .sweeping reachable _ => k ∈ reachable ∨ k ∈ s.tracker.written
  | .collected doomed => k ∉ doomed ∨ k ∈ s.tracker.written
  | .deleting doomed => k ∉ doomed
  | _ => True

def Held (k : Key) : Prop := k ∈ s.store ∧ s.Protected k

/-- An import starts on a state that can be read, and while the pruner is at work on one that it
keeps; and no key is queued that the pruner is about to delete. -/
def Careful (s : System content) : Action content → Prop
  | .importer (.start _ _ commit) =>
    Readable content s.store commit.parent ∧
      (s.phase.Pruning → commit.parent ∈ s.live ∨ commit.parent ∈ s.phase.pending)
  | .importer .queue => ∀ i key rest, s.importing = some i → i.pending = key :: rest → key ∉ s.phase.doomed
  | _ => True

variable {env config s}

variable {k : Key}

@[simp] theorem mem_putKeys {store : Store} {batch : List Key} : k ∈ putKeys store batch ↔ k ∈ batch ∨ k ∈ store := by
  rw [putKeys, mem_append, mem_filter]
  by_cases hk : k ∈ store <;> simp [hk]

theorem written_subset_record (t : Tracker) (key : Key) : t.written ⊆ (t.record key).written := by
  simp only [Tracker.record]
  split
  · exact Finset.subset_insert _ _
  · exact Finset.Subset.refl _

theorem Protected.mono {s' : System content} (hphase : s'.phase = s.phase)
    (hwritten : s.tracker.written ⊆ s'.tracker.written) (hstore : ∀ k ∈ s.store, k ∈ s'.store)
    (h : s.Protected k) : s'.Protected k := by
  simp only [Protected] at h ⊢
  rw [hphase]
  cases hp : s.phase with
  | idle | tracking | finished => trivial
  | marking pending reachable =>
    rw [hp] at h
    rcases h with hmarked | hnew | ⟨root, hroot, hopens, hk⟩
    · exact .inl hmarked
    · exact .inr (.inl (hwritten hnew))
    · exact .inr (.inr ⟨root, hroot, hopens.mono hstore, hk⟩)
  | sweeping reachable recent | collected doomed =>
    rw [hp] at h
    exact h.imp_right fun hnew => hwritten hnew
  | deleting doomed =>
    rw [hp] at h
    exact h

/-! ### The steps of the pruner -/

def Chooses (s : System content) (a : PruneAction) : Prop :=
  a = .chooseRoots ∧ s.phase = .tracking ∧ s.importing = none

theorem stepPrune_protected {a : PruneAction} (ha : ¬ s.Chooses a) (h : s.Protected k) :
    (s.stepPrune config a).Protected k := by
  cases a with
  | startTracking =>
    simp only [stepPrune]
    split
    · trivial
    · exact h
  | chooseRoots =>
    simp only [stepPrune]
    split
    · rename_i hphase himporting
      exact absurd ⟨rfl, hphase, himporting⟩ ha
    · exact h
  | markRoot =>
    simp only [stepPrune]
    split
    · rename_i root rest reachable hphase
      split
      · trivial
      · rename_i reachable' hmark
        have hmem := ((markRoot_marks root).of_ok hmark).2 k
        simp only [Protected, hphase] at h
        rcases h with hmarked | hnew | ⟨root', hroot', hopens, hk⟩
        · exact .inl (hmem.mpr (Or.inl hmarked))
        · exact .inr (.inl hnew)
        · rcases mem_cons.mp hroot' with rfl | hrest
          · exact .inl (hmem.mpr (Or.inr ⟨hopens, hk⟩))
          · exact .inr (.inr ⟨root', hrest, hopens, hk⟩)
    · exact h
  | readWritten =>
    simp only [stepPrune]
    split
    · rename_i reachable hphase
      simp only [Protected, hphase] at h
      rcases h with hmarked | hnew | ⟨root, hroot, -⟩
      · exact .inl hmarked
      · exact .inr hnew
      · cases hroot
    · exact h
  | collect =>
    simp only [stepPrune]
    split
    · rename_i reachable recent hphase
      simp only [Protected, hphase] at h
      exact h.imp_left fun hmarked hdoomed => (mem_collect.mp hdoomed).2.2.1 hmarked
    · exact h
  | recheck =>
    simp only [stepPrune]
    split
    · rename_i doomed hphase
      simp only [Protected, hphase] at h
      show k ∉ doomed.filter fun key => key ∉ s.tracker.written
      simp only [mem_filter, decide_not, Bool.not_eq_true', decide_eq_false_iff_not, not_and, not_not]
      exact fun hdoomed => h.resolve_left fun hsafe => hsafe hdoomed
    · exact h
  | flush =>
    simp only [stepPrune]
    split
    · trivial
    · rename_i key rest hphase
      simp only [Protected, hphase] at h
      exact fun hdoomed => h (mem_of_mem_drop hdoomed)
    · exact h

theorem stepPrune_store (a : PruneAction) (h : s.Held k) : k ∈ (s.stepPrune config a).store := by
  obtain ⟨hk, hprotected⟩ := h
  cases a with
  | flush =>
    simp only [stepPrune]
    split
    · exact hk
    · rename_i key rest hphase
      simp only [Protected, hphase] at hprotected
      exact mem_deleteKeys.mpr ⟨hk, fun hdoomed => hprotected (mem_of_mem_take hdoomed)⟩
    · exact hk
  | _ =>
    simp only [stepPrune]
    repeat' split
    all_goals exact hk

theorem stepPrune_chain (config : PruneConfig) (s : System content) (a : PruneAction) :
    (s.stepPrune config a).chain = s.chain ∧ (s.stepPrune config a).importing = s.importing := by
  cases a <;>
  · simp only [stepPrune]
    repeat' split
    all_goals exact ⟨rfl, rfl⟩

theorem stepPrune_tracking (a : PruneAction) (h : s.phase.Tracks → s.tracker.tracking = true) :
    (s.stepPrune config a).phase.Tracks → (s.stepPrune config a).tracker.tracking = true := by
  cases a with
  | startTracking =>
    simp only [stepPrune]
    split
    · exact fun _ => rfl
    · exact h
  | _ =>
    simp only [stepPrune]
    repeat' split
    all_goals first
      | exact h
      | exact fun hfalse => hfalse.elim
      | exact fun _ => h (by simp only [*, Phase.Tracks])

/-- The states the run keeps stay protected, and a state that was marked joins them. -/
theorem stepPrune_live (a : PruneAction) (h : ∀ root ∈ s.live, ∀ k ∈ stateKeys content root, s.Protected k) :
    ∀ root ∈ (s.stepPrune config a).live, ∀ k ∈ stateKeys content root, (s.stepPrune config a).Protected k := by
  by_cases hchooses : s.Chooses a
  · obtain ⟨rfl, hphase, himporting⟩ := hchooses
    intro root hroot
    simp only [stepPrune, hphase, himporting] at hroot
    cases hroot
  · have hlive : ∀ root ∈ (s.stepPrune config a).live, root ∈ s.live ∨
        ∀ k ∈ stateKeys content root, (s.stepPrune config a).Protected k := by
      cases a with
      | markRoot =>
        simp only [stepPrune]
        split
        · rename_i root rest reachable hphase
          split
          · exact fun root hroot => Or.inl hroot
          · rename_i reachable' hmark
            have hmem := ((markRoot_marks root).of_ok hmark).2
            intro root' hroot'
            split at hroot'
            · rename_i n hopen
              rcases mem_cons.mp hroot' with rfl | hold
              · exact .inr fun k hk => Or.inl ((hmem k).mpr (Or.inr ⟨⟨n, hopen⟩, hk⟩))
              · exact .inl hold
            · exact .inl hroot'
        · exact fun root hroot => Or.inl hroot
      | chooseRoots =>
        simp only [stepPrune]
        split
        · exact forall_mem_nil _
        · exact fun root hroot => Or.inl hroot
      | _ =>
        simp only [stepPrune]
        repeat' split
        all_goals exact fun root hroot => Or.inl hroot
    intro root hroot k hk
    rcases hlive root hroot with hold | hnew
    · exact stepPrune_protected hchooses (h root hold k hk)
    · exact hnew k hk

/-! ### The invariant -/

end System

/-- The state an import builds on stays, and so does what it has queued. -/
structure Import.Sound {content : StateContent} (s : System content) (i : Import content) : Prop where
  parent : ∀ k ∈ stateKeys content i.commit.parent, s.Held k
  decodable : Decodable content i.commit.root
  queue : ∀ k ∈ i.commit.queue, k ∈ i.pending ∨ s.Protected k ∧ (k ∈ i.batch ∨ k ∈ s.store)
  written : i.written = true → i.pending = [] ∧ i.batch = []

theorem Import.Sound.frame {content : StateContent} {s s' : System content} {i : Import content} (h : i.Sound s)
    (hheld : ∀ k, s.Held k → s'.Held k) (hprotected : ∀ k, s.Protected k → s'.Protected k) : i.Sound s' := by
  refine ⟨fun k hk => hheld k (h.parent k hk), h.decodable, fun k hk => ?_, h.written⟩
  rcases h.queue k hk with hpending | ⟨hsafe, hbatch | hstore⟩
  · exact .inl hpending
  · exact .inr ⟨hprotected k hsafe, Or.inl hbatch⟩
  · exact .inr ⟨hprotected k hsafe, Or.inr (hheld k ⟨hstore, hsafe⟩).1⟩

theorem Import.Sound.held {content : StateContent} {s : System content} {i : Import content} (h : i.Sound s)
    (hwritten : i.written = true) : ∀ k ∈ stateKeys content i.commit.root, s.Held k := by
  obtain ⟨hpending, hbatch⟩ := h.written hwritten
  intro k hk
  rcases i.commit.covers k hk with hparent | hqueue
  · exact h.parent k hparent
  · rcases h.queue k hqueue with hin | ⟨hsafe, hin | hstore⟩
    · rw [hpending] at hin
      cases hin
    · rw [hbatch] at hin
      cases hin
    · exact ⟨hstore, hsafe⟩

namespace System

variable {content : StateContent} {env : Env} {config : PruneConfig} {s : System content}

structure Sound (s : System content) : Prop where
  decodable : Decodable content s.head
  head : ∀ k ∈ stateKeys content s.head, s.Held k
  live : ∀ root ∈ s.live, ∀ k ∈ stateKeys content root, s.Protected k
  importing : ∀ i, s.importing = some i → i.Sound s
  tracking : s.phase.Tracks → s.tracker.tracking = true

theorem Sound.readable (h : s.Sound) : Readable content s.store s.head :=
  readable_iff.mpr ⟨h.decodable, fun k hk => (h.head k hk).1⟩

variable {root : Hash} {k : Key} {action : Action content}

theorem held_of_chooses {a : PruneAction} (ha : s.Chooses a)
    (hroot : root ∈ retainedRoots config s.chain) (hreadable : Readable content s.store root) :
    ∀ k ∈ stateKeys content root, (s.stepPrune config a).Held k := by
  obtain ⟨rfl, hphase, himporting⟩ := ha
  intro k hk
  simp only [stepPrune, hphase, himporting]
  exact ⟨hreadable.2 k hk, Or.inr (.inr ⟨root, hroot, hreadable.1.opens, hk⟩)⟩

theorem Sound.stepPrune (h : s.Sound) (a : PruneAction) : (s.stepPrune config a).Sound := by
  obtain ⟨hchain, himporting⟩ := stepPrune_chain config s a
  have hhead : (s.stepPrune config a).head = s.head := by rw [System.head, hchain]; rfl
  by_cases hchooses : s.Chooses a
  · refine ⟨hhead ▸ h.decodable, ?_, stepPrune_live a h.live, ?_, stepPrune_tracking a h.tracking⟩
    · rw [hhead]
      refine held_of_chooses hchooses ?_ h.readable
      exact (mem_foldl_addRoot _ _).mpr (Or.inr ⟨s.chain.current, mem_cons_self, rfl⟩)
    · rw [himporting, hchooses.2.2]
      intro i hi
      cases hi
  · have hheld : ∀ k, s.Held k → (s.stepPrune config a).Held k :=
      fun k hk => ⟨stepPrune_store a hk, stepPrune_protected hchooses hk.2⟩
    refine ⟨hhead ▸ h.decodable, ?_, stepPrune_live a h.live, ?_, stepPrune_tracking a h.tracking⟩
    · rw [hhead]
      exact fun k hk => hheld k (h.head k hk)
    · rw [himporting]
      exact fun i hi => (h.importing i hi).frame hheld fun k hk => stepPrune_protected hchooses hk

/-! ### The steps of an import -/

theorem protected_of_not_pruning (h : ¬ s.phase.Pruning) (k : Key) : s.Protected k := by
  simp only [Protected]
  cases hphase : s.phase <;> first | trivial | exact absurd (hphase ▸ trivial) h

theorem protected_of_pending (hroot : root ∈ s.phase.pending) (hopens : Opens content s.store root)
    (hk : k ∈ stateKeys content root) : s.Protected k := by
  cases hphase : s.phase with
  | marking pending reachable =>
    rw [hphase] at hroot
    simp only [Protected, hphase]
    exact .inr (.inr ⟨root, hroot, hopens, hk⟩)
  | _ =>
    rw [hphase] at hroot
    cases hroot

theorem protected_record (s : System content) {s' : System content} {key : Key} (hphase : s'.phase = s.phase)
    (htracker : s'.tracker = s.tracker.record key) (htracking : s.phase.Tracks → s.tracker.tracking = true)
    (hdoomed : key ∉ s.phase.doomed) : s'.Protected key := by
  have hwritten : s.phase.Tracks → key ∈ s'.tracker.written := by
    intro htracks
    rw [htracker, Tracker.record, if_pos (htracking htracks)]
    exact Finset.mem_insert_self _ _
  simp only [Protected]
  rw [hphase]
  cases hp : s.phase with
  | idle | tracking | finished => trivial
  | marking pending reachable => exact .inr (.inl (hwritten (hp ▸ trivial)))
  | sweeping _ _ | collected _ => exact .inr (hwritten (hp ▸ trivial))
  | deleting doomed =>
    rw [hp] at hdoomed
    exact hdoomed

theorem Sound.grow {s' : System content} (h : s.Sound) (hphase : s'.phase = s.phase)
    (hwritten : s.tracker.written ⊆ s'.tracker.written) (htracking : s'.tracker.tracking = s.tracker.tracking)
    (hstore : ∀ k ∈ s.store, k ∈ s'.store) (hchain : s'.chain = s.chain) (hlive : s'.live = s.live)
    (himporting : (∀ k, s.Protected k → s'.Protected k) → ∀ i, s'.importing = some i → i.Sound s') : s'.Sound := by
  have hhead : s'.head = s.head := by rw [System.head, hchain]; rfl
  have hprotected : ∀ k, s.Protected k → s'.Protected k := fun k hk => hk.mono hphase hwritten hstore
  constructor
  case decodable => exact hhead ▸ h.decodable
  case head =>
    rw [hhead]
    exact fun k hk => ⟨hstore k (h.head k hk).1, hprotected k (h.head k hk).2⟩
  case live =>
    rw [hlive]
    exact fun root hroot k hk => hprotected k (h.live root hroot k hk)
  case importing => exact himporting hprotected
  case tracking =>
    rw [hphase, htracking]
    exact h.tracking

theorem Sound.abort (h : s.Sound) : ({ s with importing := none } : System content).Sound :=
  h.grow rfl (Finset.Subset.refl _) rfl (fun _ hk => hk) rfl rfl fun _ _ hi => nomatch hi

theorem Sound.stepImport (h : s.Sound) {a : ImportAction content} (hcareful : s.Careful (.importer a)) :
    (s.stepImport env a).Sound := by
  cases a with
  | start now block commit =>
    simp only [System.stepImport]
    split
    · split
      · rename_i parent n _ _ hopen heq
        obtain ⟨hreadable, hkept⟩ := hcareful
        have hparent : ∀ k ∈ stateKeys content commit.parent, s.Held k := by
          intro k hk
          refine ⟨hreadable.2 k hk, ?_⟩
          by_cases hpruning : s.phase.Pruning
          · rcases hkept hpruning with hlive | hpending
            · exact h.live _ hlive k hk
            · exact protected_of_pending hpending ⟨n, hopen⟩ hk
          · exact protected_of_not_pruning hpruning k
        refine h.grow rfl (Finset.Subset.refl _) rfl (fun _ hk => hk) rfl rfl fun _ i hi => ?_
        cases hi
        exact ⟨hparent, commit.decodable (readable_iff.mp hreadable).1, fun k hk => Or.inl hk, fun hw => nomatch hw⟩
      · exact h
    · exact h
  | queue =>
    simp only [System.stepImport]
    split
    · exact h
    rename_i i hi
    split
    · exact h
    rename_i key rest hpending
    have hsound := h.importing i hi
    have hwritten := written_subset_record s.tracker key
    have hrecord : (s.tracker.record key).tracking = s.tracker.tracking := by
      simp only [Tracker.record]
      split <;> rfl
    refine h.grow rfl hwritten hrecord (fun _ hk => hk) rfl rfl fun hprotected i' hi' => ?_
    cases hi'
    constructor
    case parent => exact fun k hk => ⟨(hsound.parent k hk).1, hprotected k (hsound.parent k hk).2⟩
    case decodable => exact hsound.decodable
    case queue =>
      intro k hk
      rcases hsound.queue k hk with hin | ⟨hsafe, hthere⟩
      · rw [hpending] at hin
        rcases mem_cons.mp hin with rfl | hrest
        · refine .inr ⟨protected_record s rfl rfl h.tracking (hcareful i k rest hi hpending), Or.inl ?_⟩
          exact mem_append_right _ (mem_singleton_self k)
        · exact .inl hrest
      · exact .inr ⟨hprotected k hsafe, hthere.imp_left (mem_append_left _)⟩
    case written =>
      intro hw
      rw [(hsound.written hw).1] at hpending
      cases hpending
  | write =>
    simp only [System.stepImport]
    split
    · exact h
    rename_i i hi
    split
    · rename_i hpending
      have hsound := h.importing i hi
      have hstore : ∀ k ∈ s.store, k ∈ putKeys s.store i.batch := fun k hk => mem_putKeys.mpr (Or.inr hk)
      refine h.grow rfl (Finset.Subset.refl _) rfl hstore rfl rfl fun hprotected i' hi' => ?_
      cases hi'
      constructor
      case parent => exact fun k hk => ⟨hstore k (hsound.parent k hk).1, hprotected k (hsound.parent k hk).2⟩
      case decodable => exact hsound.decodable
      case queue =>
        intro k hk
        rcases hsound.queue k hk with hin | ⟨hsafe, hthere⟩
        · exact .inl hin
        · exact .inr ⟨hprotected k hsafe, Or.inr (mem_putKeys.mpr hthere)⟩
      case written => exact fun _ => ⟨hpending, rfl⟩
    · exact h
  | moveHead =>
    simp only [System.stepImport]
    split
    · exact h
    rename_i i hi
    split
    · rename_i hwritten
      split
      · rename_i hroot
        have hsound := h.importing i hi
        have hnew := hsound.held hwritten
        obtain ⟨hdecodable, hhead⟩ : Decodable content (s.chain.adopt env i.block).2.current.header.stateRoot ∧
            ∀ k ∈ stateKeys content (s.chain.adopt env i.block).2.current.header.stateRoot, s.Held k := by
          rcases BlockChain.adopt_current env s.chain i.block with hsame | hmoved
          · rw [hsame]
            exact ⟨h.decodable, h.head⟩
          · rw [hmoved, ← hroot]
            exact ⟨hsound.decodable, hnew⟩
        exact ⟨hdecodable, hhead, forall_mem_cons.mpr ⟨fun k hk => (hnew k hk).2, h.live⟩, fun _ hi => (nomatch hi), h.tracking⟩
      · exact h.abort
    · exact h
  | abort => exact h.abort

theorem Sound.step (h : s.Sound) (hcareful : s.Careful action) : (s.step env config action).Sound := by
  cases action with
  | importer a => exact h.stepImport hcareful
  | pruner a => exact h.stepPrune a

theorem stepImport_grows (env : Env) (s : System content) (a : ImportAction content) :
    (s.stepImport env a).phase = s.phase ∧ s.tracker.written ⊆ (s.stepImport env a).tracker.written ∧
      ∀ k ∈ s.store, k ∈ (s.stepImport env a).store := by
  have hsame : s.phase = s.phase ∧ s.tracker.written ⊆ s.tracker.written ∧ ∀ k ∈ s.store, k ∈ s.store :=
    ⟨rfl, Finset.Subset.refl _, fun _ hk => hk⟩
  cases a with
  | queue =>
    simp only [System.stepImport]
    split
    · exact hsame
    split
    · exact hsame
    · exact ⟨rfl, written_subset_record _ _, fun _ hk => hk⟩
  | write =>
    simp only [System.stepImport]
    split
    · exact hsame
    split
    · exact ⟨rfl, Finset.Subset.refl _, fun k hk => mem_putKeys.mpr (Or.inr hk)⟩
    · exact hsame
  | abort => exact hsame
  | _ =>
    simp only [System.stepImport]
    repeat' split
    all_goals exact hsame

theorem Held.step (haction : ∀ a, action = .pruner a → ¬ s.Chooses a)
    (h : s.Held k) : (s.step env config action).Held k := by
  cases action with
  | importer a =>
    obtain ⟨hphase, hwritten, hstore⟩ := stepImport_grows env s a
    exact ⟨hstore k h.1, h.2.mono hphase hwritten hstore⟩
  | pruner a => exact ⟨stepPrune_store a h, stepPrune_protected (haction a rfl) h.2⟩

theorem step_chosen (action : Action content) (h : s.phase.Chosen) : (s.step env config action).phase.Chosen := by
  cases action with
  | importer a =>
    show (s.stepImport env a).phase.Chosen
    rw [(stepImport_grows env s a).1]
    exact h
  | pruner a =>
    show (s.stepPrune config a).phase.Chosen
    cases a <;>
    · simp only [stepPrune]
      repeat' split
      all_goals first
        | exact h
        | trivial
        | simp_all only [Phase.Chosen]

theorem Held.run {actions : List (Action content)} (hchosen : s.phase.Chosen) (h : s.Held k) :
    (Transition.run (System.step env config) s actions).Held k := by
  induction actions generalizing s with
  | nil => exact h
  | cons action rest ih =>
    refine ih (step_chosen action hchosen) (h.step fun a _ hchooses => ?_)
    rw [hchooses.2.1] at hchosen
    exact hchosen

/-- The pruner is at rest, no import is under way, and the head's state can be read. -/
structure Initial (s : System content) : Prop where
  phase : s.phase = .idle
  importing : s.importing = none
  head : Readable content s.store s.head

theorem Initial.sound (h : s.Initial) : s.Sound := by
  have hprotected : ∀ k, s.Protected k := protected_of_not_pruning (by rw [h.phase]; exact id)
  refine ⟨(readable_iff.mp h.head).1, fun k hk => ⟨h.head.2 k hk, hprotected k⟩, fun _ _ k _ => hprotected k, ?_, ?_⟩
  · rw [h.importing]
    exact fun i hi => nomatch hi
  · rw [h.phase]
    exact fun hfalse => hfalse.elim

/-- In every run whose steps are careful the head's state can be read at every moment, also after the
run of the pruner, and so can the state of every root that could be read when the roots were chosen. -/
theorem prune_safe (env : Env) (config : PruneConfig) {s₀ : System content} (hinitial : s₀.Initial)
    (actions : List (Action content)) (hcareful : Transition.Steps (step env config) Careful s₀ actions) :
    Readable content (Transition.run (step env config) s₀ actions).store
        (Transition.run (step env config) s₀ actions).head ∧
      ∀ before after, actions = before ++ .pruner .chooseRoots :: after →
        (Transition.run (step env config) s₀ before).Chooses .chooseRoots →
        ∀ root ∈ retainedRoots config (Transition.run (step env config) s₀ before).chain,
          Readable content (Transition.run (step env config) s₀ before).store root →
          Readable content (Transition.run (step env config) s₀ actions).store root := by
  refine ⟨?_, ?_⟩
  · exact (Transition.run_invariant (fun s action hcond hs => Sound.step hs hcond) hcareful hinitial.sound).readable
  · rintro before after rfl hchooses root hroot hreadable
    rw [hreadable.iff_keys]
    intro k hk
    have hheld : ((Transition.run (step env config) s₀ before).stepPrune config .chooseRoots).Held k :=
      held_of_chooses hchooses hroot hreadable k hk
    have hchosen : ((Transition.run (step env config) s₀ before).stepPrune config .chooseRoots).phase.Chosen := by
      simp only [stepPrune, hchooses.2.1, hchooses.2.2]
      trivial
    rw [Transition.run_append]
    exact (hheld.run hchosen).1

end System

/-! ### Two runs that lose a node of the head, and one that does not -/

namespace ConcurrentExample

open PruneExample (env chain forked side)

/-- Two hashes are leaves, and every other hash is an extension that leads to the leaf 9. -/
def node (h : Hash) : TrieNode :=
  .short [0] (if h = 1 ∨ h = 9 then .value [1] else .hash 9) ⟨some h, false, true⟩

def content : StateContent where
  node h := some (node h)
  rank h := if h = 1 ∨ h = 9 then 0 else 1
  rank_lt := by
    intro h n hn h' hh'
    cases hn
    by_cases hleaf : h = 1 ∨ h = 9
    · simp only [node, if_pos hleaf, TrieNode.childHashes] at hh'
      cases hh'
    · simp only [node, if_neg hleaf, TrieNode.childHashes, List.mem_singleton] at hh'
      rw [hh', if_neg hleaf]
      decide
  cached := by
    intro h n hn
    cases hn
    simp only [node, TrieNode.cachedHashes]
    split <;> rfl
  account _ := some ⟨0, 1, 0, []⟩

variable {h : Hash}

theorem refs_leaf (hleaf : h = 1 ∨ h = 9) : (stateGraph content).refs (.account h) = [] := by
  show refs content (.account h) = []
  simp only [refs, content, node, if_pos hleaf, TrieNode.childHashes, TrieNode.leafValues]
  rfl

theorem refs_extension (hleaf : ¬ (h = 1 ∨ h = 9)) : (stateGraph content).refs (.account h) = [.account 9] := by
  show refs content (.account h) = [.account 9]
  simp only [refs, content, node, if_neg hleaf, TrieNode.childHashes, TrieNode.leafValues]
  rfl

theorem stateKeys_extension (hempty : ¬ (h = 0 ∨ h = emptyRoot)) (hleaf : ¬ (h = 1 ∨ h = 9)) :
    stateKeys content h = {Key.node h, Key.node 9} := by
  rw [stateKeys, rootVertices, if_neg hempty, RefGraph.keys_singleton, refs_extension hleaf, RefGraph.keys_singleton,
    refs_leaf (Or.inr rfl), RefGraph.keys_nil, insert_empty_eq]
  rfl

theorem stateKeys_leaf : stateKeys content 1 = {Key.node 1} := by
  rw [stateKeys, rootVertices, if_neg (by decide), RefGraph.keys_singleton, refs_leaf (Or.inl rfl), RefGraph.keys_nil,
    insert_empty_eq]
  rfl

theorem decodable (h : Hash) : Decodable content h := by
  intro a ha v hv
  cases v with
  | account x => exact ⟨node x, rfl, fun _ _ => rfl⟩
  | storage x => exact ⟨node x, rfl, fun _ _ => trivial⟩
  | code x => trivial

def fresh : Commit content where
  parent := 1
  root := 5
  queue := [.node 5, .node 9]
  covers := by
    rw [stateKeys_extension (by decide) (by decide)]
    intro k hk
    rcases hk with rfl | rfl
    · exact .inr List.mem_cons_self
    · exact .inr (List.mem_cons_of_mem _ List.mem_cons_self)
  decodable _ := decodable 5

def shared : Commit content where
  parent := side.header.stateRoot
  root := 7
  queue := [.node 7]
  covers := by
    rw [stateKeys_extension (by decide) (by decide), stateKeys_extension (by decide +kernel) (by decide +kernel)]
    intro k hk
    rcases hk with rfl | rfl
    · exact .inr List.mem_cons_self
    · exact .inl (.inr rfl)
  decodable _ := decodable 7

def childOfGenesis : Block := { emptyChild chain.genesis 1 1 [] with header.stateRoot := 5 }

def childOfSide : Block := { emptyChild side 1 2 [] with header.stateRoot := 7 }

/-- The store has left-overs of the state 5, from a block that is gone, and of a state 6. -/
def atGenesis : System content := ⟨chain, [.node 1, .node 5, .node 6, .node 9], ⟨false, ∅⟩, none, .idle, []⟩

def atFork : System content :=
  ⟨forked, [.node 1, .node side.header.stateRoot, .node 9], ⟨false, ∅⟩, none, .idle, []⟩

/-- The import queues its keys after the pruner has looked at the tracked writes for the last time. -/
def lateQueue : List (Action content) :=
  [.pruner .startTracking, .pruner .chooseRoots, .pruner .markRoot, .pruner .readWritten, .pruner .collect,
    .pruner .recheck, .importer (.start 100 childOfGenesis fresh), .importer .queue, .importer .queue,
    .importer .write, .importer .moveHead, .pruner .flush, .pruner .flush]

def sideImport : List (Action content) :=
  [.pruner .startTracking, .pruner .chooseRoots, .importer (.start 100 childOfSide shared), .importer .queue,
    .importer .write, .importer .moveHead, .pruner .markRoot, .pruner .readWritten, .pruner .collect,
    .pruner .recheck, .pruner .flush, .pruner .flush]

/-- The import extends the head and has queued its keys before the last look. -/
def earlyQueue : List (Action content) :=
  [.pruner .startTracking, .pruner .chooseRoots, .importer (.start 100 childOfGenesis fresh), .importer .queue,
    .pruner .markRoot, .pruner .readWritten, .pruner .collect, .importer .queue, .pruner .recheck,
    .importer .write, .pruner .flush, .importer .moveHead, .pruner .flush]

theorem readable_leaf {store : Store} (hstore : Key.node 1 ∈ store) : Readable content store 1 := by
  refine readable_iff.mpr ⟨decodable 1, fun k hk => ?_⟩
  rw [← stateKeys, stateKeys_leaf] at hk
  rw [hk]
  exact hstore

variable (s : System content)

theorem initial (hphase : s.phase = .idle) (himporting : s.importing = none)
    (hhead : s.head = 1) (hstore : Key.node 1 ∈ s.store) : s.Initial :=
  ⟨hphase, himporting, hhead ▸ readable_leaf hstore⟩

theorem careful_start (now : Nat) (block : Block) (hstore : Key.node 1 ∈ s.store)
    (hpending : 1 ∈ s.phase.pending) : s.Careful (.importer (.start now block fresh)) :=
  ⟨readable_leaf hstore, fun _ => Or.inr hpending⟩

theorem careful_queue (hdoomed : s.phase.doomed = []) : s.Careful (.importer .queue) := by
  intro i key rest _ _
  rw [hdoomed]
  exact not_mem_nil

theorem not_whole {store : Store} (hempty : ¬ (h = 0 ∨ h = emptyRoot)) (hleaf : ¬ (h = 1 ∨ h = 9))
    (hlost : Key.node 9 ∉ store) : ¬ Whole content store h := by
  intro hwhole
  refine hlost (hwhole (Key.node 9) ?_)
  rw [← stateKeys, stateKeys_extension hempty hleaf]
  exact .inr rfl

end ConcurrentExample

namespace System

open ConcurrentExample
open PruneExample (env)

/-- The head moves to a state that was imported beside the run of the pruner, which deletes a left-over. -/
theorem prune_safe_early_queue :
    (Transition.run (step env .default) atGenesis earlyQueue).store = [.node 1, .node 5, .node 9] ∧
      Readable content (Transition.run (step env .default) atGenesis earlyQueue).store
        (Transition.run (step env .default) atGenesis earlyQueue).head := by
  have hcareful : Transition.Steps (step env .default) Careful atGenesis earlyQueue :=
    ⟨trivial, trivial, careful_start _ 100 childOfGenesis (by decide) (by decide),
      careful_queue _ (by decide), trivial, trivial, trivial, careful_queue _ (by decide), trivial,
      trivial, trivial, trivial, trivial, trivial⟩
  have hinitial : atGenesis.Initial := initial _ rfl rfl (by decide) (by decide)
  exact ⟨by decide, (prune_safe env .default hinitial earlyQueue hcareful).1⟩

/-- The run of the pruner is over and the head's state lacks a node: once because a key that was queued
after the last look at the tracked writes is deleted, and once because the new head shares a node with
the state of a side branch. -/
theorem prune_unsafe :
    atGenesis.Initial ∧ (Transition.run (step env .default) atGenesis lateQueue).phase = .finished ∧
      ¬ Whole content (Transition.run (step env .default) atGenesis lateQueue).store
        (Transition.run (step env .default) atGenesis lateQueue).head ∧
    atFork.Initial ∧ (Transition.run (step env .default) atFork sideImport).phase = .finished ∧
      ¬ Whole content (Transition.run (step env .default) atFork sideImport).store
        (Transition.run (step env .default) atFork sideImport).head := by
  have hlate : (Transition.run (step env .default) atGenesis lateQueue).phase = .finished ∧
      (Transition.run (step env .default) atGenesis lateQueue).store = [.node 1] ∧
      (Transition.run (step env .default) atGenesis lateQueue).head = 5 := by
    decide
  have hside : (Transition.run (step env .default) atFork sideImport).phase = .finished ∧
      (Transition.run (step env .default) atFork sideImport).store = [.node 7, .node 1] ∧
      (Transition.run (step env .default) atFork sideImport).head = 7 := by
    decide +kernel
  obtain ⟨hlateOver, hlateStore, hlateHead⟩ := hlate
  obtain ⟨hsideOver, hsideStore, hsideHead⟩ := hside
  refine ⟨initial _ rfl rfl (by decide) (by decide), hlateOver, ?_,
    initial _ rfl rfl (by decide +kernel) (by decide +kernel), hsideOver, ?_⟩
  · rw [hlateStore, hlateHead]
    exact not_whole (by decide) (by decide) (by decide)
  · rw [hsideStore, hsideHead]
    exact not_whole (by decide) (by decide) (by decide)

end System

end PadiChain.Prune
