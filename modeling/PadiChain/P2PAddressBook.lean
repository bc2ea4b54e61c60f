import PadiChain.LibRoundRobin
import Mathlib.Data.List.Sort

/-! The book of peer addresses. It holds every address once and is bounded; a full book makes room by dropping the
worst entry of the most crowded network. A sample takes one address of every network in turn, best entries first,
and is as large as the book allows. -/

namespace PadiChain.P2P

open List

def maxAddressesPerMessage : Nat := 32

def addressBookLimit : Nat := 1024

/-- An address is forgotten after this many dials in a row that failed. -/
def maxDialFailures : Nat := 5

/-- How addresses are read: whether one can be dialled, and the network it lies in. -/
structure AddressRules where
  usable : String → Bool
  netgroup : String → String

structure AddressEntry where
  addr : String
  lastSeen : Nat
  failures : Nat
  deriving DecidableEq, Repr

/-- `worseThan`: crowded networks first, then what failed most, then what was seen longest ago. -/
def worseThan (a : AddressEntry) (aCount : Nat) (b : AddressEntry) (bCount : Nat) : Bool :=
  if aCount ≠ bCount then decide (bCount < aCount)
  else if a.failures ≠ b.failures then decide (b.failures < a.failures)
  else decide (a.lastSeen < b.lastSeen)

def crowd (rules : AddressRules) (known : List AddressEntry) (e : AddressEntry) : Nat :=
  known.countP fun e' => rules.netgroup e'.addr = rules.netgroup e.addr

def worseOf (rules : AddressRules) (known : List AddressEntry) (worst : Option AddressEntry) (e : AddressEntry) :
    AddressEntry :=
  match worst with
  | none => e
  | some w => if worseThan e (crowd rules known e) w (crowd rules known w) then e else w

def evictWorst (rules : AddressRules) (known : List AddressEntry) : List AddressEntry :=
  match known.foldl (fun worst e => some (worseOf rules known worst e)) none with
  | none => known
  | some worst => known.filter fun e => e.addr ≠ worst.addr

variable (rules : AddressRules)

theorem worseOf_eq (known : List AddressEntry) (worst : Option AddressEntry) (e : AddressEntry) :
    worseOf rules known worst e = e ∨ worst = some (worseOf rules known worst e) := by
  cases worst with
  | none => exact .inl rfl
  | some w =>
    simp only [worseOf]
    split
    · exact .inl rfl
    · exact .inr rfl

theorem exists_worst_mem (known : List AddressEntry) {l : List AddressEntry}
    {worst : Option AddressEntry} (h : l ≠ []) :
    ∃ w, l.foldl (fun worst e => some (worseOf rules known worst e)) worst = some w ∧ (w ∈ l ∨ worst = some w) := by
  induction l generalizing worst with
  | nil => exact absurd rfl h
  | cons e l ih =>
    have hmem : worseOf rules known worst e ∈ e :: l ∨ worst = some (worseOf rules known worst e) :=
      (worseOf_eq rules known worst e).imp_left fun heq => mem_cons.mpr (.inl heq)
    by_cases hl : l = []
    · subst hl
      exact ⟨_, rfl, hmem⟩
    · obtain ⟨w, hfold, hw⟩ := @ih (some (worseOf rules known worst e)) hl
      refine ⟨w, hfold, ?_⟩
      rcases hw with hw | hw
      · exact .inl (mem_cons_of_mem e hw)
      · cases hw
        exact hmem

theorem evictWorst_sublist (known : List AddressEntry) : (evictWorst rules known).Sublist known := by
  rw [evictWorst]
  split
  · exact List.Sublist.refl known
  · exact filter_sublist

theorem length_evictWorst_lt {known : List AddressEntry} (h : known ≠ []) :
    (evictWorst rules known).length < known.length := by
  obtain ⟨w, hfold, hw⟩ : ∃ w, known.foldl (fun worst e => some (worseOf rules known worst e)) none = some w ∧
      (w ∈ known ∨ none = some w) := exists_worst_mem rules known h
  rw [evictWorst, hfold]
  refine length_filter_lt_length_iff_exists.mpr ⟨w, hw.resolve_right (nomatch ·), ?_⟩
  simp

/-- The entries, each address once, within the limit. -/
structure AddressBook where
  known : List AddressEntry
  nodup : (known.map AddressEntry.addr).Nodup
  within : known.length ≤ addressBookLimit

namespace AddressBook

def modify (book : AddressBook) (addr : String) (f : AddressEntry → AddressEntry) (hf : ∀ e, (f e).addr = e.addr) :
    AddressBook where
  known := book.known.map fun e => if e.addr = addr then f e else e
  nodup := by
    have hsame : AddressEntry.addr ∘ (fun e => if e.addr = addr then f e else e) = AddressEntry.addr := by
      funext e
      rw [Function.comp_apply]
      split
      · exact hf e
      · rfl
    rw [List.map_map, hsame]
    exact book.nodup
  within := by
    rw [List.length_map]
    exact book.within

def forget (book : AddressBook) (addr : String) : AddressBook where
  known := book.known.filter fun e => e.addr ≠ addr
  nodup := book.nodup.sublist (List.filter_sublist.map _)
  within := (List.length_filter_le _ _).trans book.within

/-- Make room if the book is full, and enter an address that it does not hold. -/
def insert (rules : AddressRules) (now : Nat) (book : AddressBook) (addr : String)
    (hnew : addr ∉ book.known.map AddressEntry.addr) : AddressBook where
  known := (if addressBookLimit ≤ book.known.length then evictWorst rules book.known else book.known) ++ [⟨addr, now, 0⟩]
  nodup := by
    have hsublist : (if addressBookLimit ≤ book.known.length then evictWorst rules book.known else book.known).Sublist
        book.known := by
      split
      · exact evictWorst_sublist rules book.known
      · exact List.Sublist.refl _
    rw [List.map_append, List.nodup_append_comm]
    refine List.nodup_cons.mpr ⟨fun hmem => hnew ?_, book.nodup.sublist (hsublist.map _)⟩
    exact (hsublist.map _).subset hmem
  within := by
    rw [List.length_append, List.length_singleton]
    split
    · rename_i hfull
      have hne : book.known ≠ [] := by
        rintro hnil
        rw [hnil] at hfull
        exact absurd hfull (by decide)
      exact (length_evictWorst_lt rules hne).trans_le book.within
    · omega

/-- `add`: an address that cannot be dialled is ignored, and one that is known is seen again. -/
def add (rules : AddressRules) (now : Nat) (book : AddressBook) (addr : String) : Bool × AddressBook :=
  if rules.usable addr then
    if h : addr ∈ book.known.map AddressEntry.addr then
      (false, book.modify addr (fun e => { e with lastSeen := now }) fun _ => rfl)
    else (true, book.insert rules now addr h)
  else (false, book)

def markFailure (book : AddressBook) (addr : String) : AddressBook :=
  match book.known.find? fun e => e.addr = addr with
  | none => book
  | some e =>
    if maxDialFailures ≤ e.failures + 1 then book.forget addr
    else book.modify addr (fun e => { e with failures := e.failures + 1 }) fun _ => rfl

def markSuccess (now : Nat) (book : AddressBook) (addr : String) : AddressBook :=
  book.modify addr (fun e => { e with failures := 0, lastSeen := now }) fun _ => rfl

/-- The addresses from the most to the least promising: fewest failures first, then freshest. -/
def ranked (book : AddressBook) : List String :=
  (book.known.mergeSort fun a b =>
    decide (a.failures < b.failures ∨ a.failures = b.failures ∧ b.lastSeen ≤ a.lastSeen)).map AddressEntry.addr

end AddressBook

/-- One round of a sample: an address of every network that has one at the round's place, while there is room. -/
def samplePass (n round : Nat) : List (List String) → List String → List String
  | [], out => out
  | queue :: queues, out =>
    if out.length = n then out
    else
      match queue[round]? with
      | none => samplePass n round queues out
      | some addr => samplePass n round queues (out ++ [addr])

def sampleRounds (n : Nat) (queues : List (List String)) : Nat → Nat → List String → List String
  | 0, _, out => out
  | fuel + 1, round, out =>
    if out.length < n then
      let next := samplePass n round queues out
      if next.length = out.length then next else sampleRounds n queues fuel (round + 1) next
    else out

namespace AddressBook

def queues (rules : AddressRules) (book : AddressBook) : List (List String) :=
  RoundRobin.groups rules.netgroup (RoundRobin.firsts (book.ranked.map rules.netgroup)) book.ranked

/-- `sample`. There are no more rounds than addresses. -/
def sample (rules : AddressRules) (n : Nat) (book : AddressBook) : List String :=
  sampleRounds (min n book.known.length) (book.queues rules) book.known.length 0 []

end AddressBook

open RoundRobin

theorem samplePass_eq {n round : Nat} {queues : List (List String)} {out : List String} (h : out.length ≤ n) :
    samplePass n round queues out = (out ++ layer queues round).take n := by
  induction queues generalizing out with
  | nil =>
    rw [samplePass, layer, filterMap_nil, append_nil, take_of_length_le h]
  | cons queue queues ih =>
    rw [samplePass]
    split_ifs with hfull
    · rw [take_append_of_le_length hfull.ge, take_of_length_le hfull.le]
    · cases haddr : queue[round]? with
      | none =>
        rw [ih h, layer, layer, filterMap_cons, haddr]
      | some addr =>
        have hroom : (out ++ [addr]).length ≤ n := by
          rw [length_append, length_singleton]
          omega
        dsimp only
        rw [ih hroom, layer, layer, filterMap_cons, haddr, append_assoc]
        rfl

theorem take_take_append {α : Type} (n : Nat) (l rest : List α) : (l.take n ++ rest).take n = (l ++ rest).take n := by
  rw [take_append, take_append, take_take, min_self, length_take]
  congr 2
  omega

theorem sampleRounds_eq {n fuel round : Nat} {queues : List (List String)} {out : List String} (h : out.length ≤ n) :
    sampleRounds n queues fuel round out = (out ++ layers queues round fuel).take n := by
  induction fuel generalizing round out with
  | zero =>
    rw [sampleRounds, layers_zero, append_nil, take_of_length_le h]
  | succ fuel ih =>
    rw [sampleRounds]
    by_cases hroom : out.length < n
    · rw [if_pos hroom, samplePass_eq h]
      dsimp only
      split
      · -- a round that adds nothing has found nothing, and neither would the later ones
        rename_i hsame
        have hnone : layer queues round = [] := by
          rw [length_take, length_append] at hsame
          exact length_eq_zero_iff.mp (by omega)
        rw [layers_eq_nil hnone, hnone]
      · rw [ih (length_take_le _ _), take_take_append, layers_succ, append_assoc]
    · have hfull : out.length = n := by omega
      rw [if_neg hroom, take_append_of_le_length hfull.ge, take_of_length_le hfull.le]

namespace AddressBook

variable (rules : AddressRules) (n : Nat) (book : AddressBook)

theorem ranked_perm : book.ranked.Perm (book.known.map AddressEntry.addr) :=
  (mergeSort_perm _ _).map _

theorem layers_queues_perm {k : Nat} (h : book.known.length ≤ k) :
    (layers (book.queues rules) 0 k).Perm (book.known.map AddressEntry.addr) := by
  refine (layers_groups_perm _ _ ?_).trans (ranked_perm book)
  rwa [(ranked_perm book).length_eq, length_map]

theorem length_layers_queues {k : Nat} (h : book.known.length ≤ k) :
    (layers (book.queues rules) 0 k).length = book.known.length := by
  rw [(layers_queues_perm rules book h).length_eq, length_map]

theorem sample_eq :
    book.sample rules n = (layers (book.queues rules) 0 book.known.length).take (min n book.known.length) := by
  rw [sample, sampleRounds_eq (Nat.zero_le _), nil_append]

theorem length_sample : (book.sample rules n).length = min n book.known.length := by
  rw [sample_eq, length_take, length_layers_queues rules book le_rfl]
  omega

theorem mem_classOf_ranked {e : AddressEntry} (he : e ∈ book.known) :
    e.addr ∈ classOf rules.netgroup (rules.netgroup e.addr) book.ranked :=
  mem_classOf.mpr ⟨(ranked_perm book).symm.subset (mem_map_of_mem he), rfl⟩

theorem ranked_pairwise : book.ranked.Pairwise fun a a' => ∀ e ∈ book.known, ∀ e' ∈ book.known,
    e.addr = a → e'.addr = a' → e.failures < e'.failures ∨ e.failures = e'.failures ∧ e'.lastSeen ≤ e.lastSeen := by
  rw [ranked, pairwise_map]
  refine (pairwise_mergeSort (by grind) (by grind) book.known).imp_of_mem ?_
  intro x x' hx hx' hle e he e' he' heq heq'
  cases inj_on_of_nodup_map book.nodup he (mem_mergeSort.mp hx) heq
  cases inj_on_of_nodup_map book.nodup he' (mem_mergeSort.mp hx') heq'
  exact of_decide_eq_true hle

/-- The sample has as many distinct known addresses as asked for, or all. No network gets more than one ahead of a
network that has an address left, and no address stands in for a more promising one of its network. Rounds beyond the
size of the book change nothing. -/
theorem sample_fair :
    (book.sample rules n).length = min n book.known.length ∧ (book.sample rules n).Nodup ∧
    book.sample rules n ⊆ book.known.map AddressEntry.addr ∧
    (∀ g h, (∀ e ∈ book.known, rules.netgroup e.addr = h → e.addr ∈ book.sample rules n) ∨
      (classOf rules.netgroup g (book.sample rules n)).length ≤
        (classOf rules.netgroup h (book.sample rules n)).length + 1) ∧
    (∀ e ∈ book.known, ∀ e' ∈ book.known, rules.netgroup e.addr = rules.netgroup e'.addr →
      e.addr ∈ book.sample rules n → e'.addr ∉ book.sample rules n →
        e.failures < e'.failures ∨ e.failures = e'.failures ∧ e'.lastSeen ≤ e.lastSeen) ∧
    ∀ fuel ≥ book.known.length,
      sampleRounds (min n book.known.length) (book.queues rules) fuel 0 [] = book.sample rules n := by
  have hperm := layers_queues_perm rules book le_rfl
  obtain ⟨r, hr⟩ := classOf_take_layers rules.netgroup book.ranked (min n book.known.length) (k := book.known.length)
  rw [← queues, ← sample_eq] at hr
  refine ⟨length_sample rules n book, ?_, ?_, fun g h => ?_, fun e he e' he' hgroup hin hout => ?_, fun fuel hfuel => ?_⟩
  · rw [sample_eq]
    exact (hperm.nodup_iff.mpr book.nodup).sublist (take_sublist _ _)
  · rw [sample_eq]
    exact fun addr haddr => hperm.subset (mem_of_mem_take haddr)
  · obtain ⟨rg, hrg, hg⟩ := hr g
    obtain ⟨rh, hrh, hh⟩ := hr h
    by_cases hall : (classOf rules.netgroup h book.ranked).length ≤ rh
    · left
      rintro e he rfl
      have hmem := mem_classOf_ranked rules book he
      rw [← take_of_length_le hall, ← hh] at hmem
      exact (mem_classOf.mp hmem).1
    · rw [hg, hh, length_take, length_take]
      simp only [mem_cons, not_mem_nil, or_false] at hrg hrh
      omega
  · obtain ⟨r, -, htaken⟩ := hr (rules.netgroup e'.addr)
    have hin := mem_classOf.mpr ⟨hin, hgroup⟩
    have hmem := mem_classOf_ranked rules book he'
    have hsorted := (ranked_pairwise book).sublist (filter_sublist (p := (rules.netgroup · = rules.netgroup e'.addr)))
    rw [← classOf, ← take_append_drop r (classOf _ _ _), pairwise_append] at hsorted
    rw [← take_append_drop r (classOf _ _ _), mem_append, ← htaken] at hmem
    rw [htaken] at hin
    exact hsorted.2.2 _ hin _ (hmem.resolve_left fun hin => hout (mem_classOf.mp hin).1) e he e' he' rfl rfl
  · rw [sampleRounds_eq (Nat.zero_le _), nil_append, sample_eq]
    induction fuel, hfuel using Nat.le_induction with
    | base => rfl
    | succ fuel hfuel ih =>
      rw [layers_concat, take_append_of_le_length, ih]
      exact (min_le_right n _).trans (length_layers_queues rules book hfuel).ge

end AddressBook

end PadiChain.P2P
