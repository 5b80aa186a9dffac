import Mathlib.Data.List.Nodup
import WorkflowDag.Proofs.Arrivals
import WorkflowDag.Proofs.KeyTexts

/-!
# Arrivals partition signals

Signals that differ only in what no key shows are one signal (`Signal.core`).  Grouping puts the
signals of a list, each with the join at which it is gathered, into arrivals: one for each join and
one for each signal on its own.  `map_shown_group` says what the arrivals are, with sites and
signals in the order in which they first occur.  From it follow that arrivals are an exact partition
(`Arrival.Partition`) and that the trigger rule is decided by which signals there are, not by their
order or number (`arrivals_partition_signals`).
-/

namespace WorkflowDag

namespace Signal

theorem core_core (signal : Signal) : signal.core.core = signal.core := by
  cases signal <;> rfl

theorem key_core (signal : Signal) : signal.core.key = signal.key := by
  cases signal <;> rfl

/-- Keys tell signals apart exactly as far as their cores differ. -/
theorem key_eq_iff {first second : Signal} : first.key = second.key ↔ first.core = second.core := by
  refine ⟨core_eq_of_key, fun hCore => ?_⟩
  rw [← key_core first, hCore, key_core]

end Signal

/-- The signal as its key shows it, with its join. -/
def JoinedSignal.core (e : JoinedSignal) : JoinedSignal :=
  { e with signal := e.signal.core }

/-- The signals that dependencies bring, as their keys show them. -/
def signalPairs (dependencies : List Dependency) : List JoinedSignal :=
  (joinedSignals dependencies).map JoinedSignal.core

namespace Arrival

/-- Where a signal arrives: at a join, or on its own. -/
inductive Site where
  | join (name : String)
  | alone (signal : Signal)
deriving DecidableEq, Repr

namespace Site

/-- The join of a site. -/
def join? : Site → Option String
  | join name => some name
  | alone _ => none

/-- The text that tells sites apart. -/
def key : Site → String
  | join name => "join:" ++ name
  | alone signal => "signal:" ++ signal.key

/-- The site of signals that arrive together; without a join they are known by the first one. -/
def of? : Option String → List Signal → Option Site
  | some name, _ => some (join name)
  | none, signals => signals.head?.map alone

end Site

/-- The site of a signal. -/
def siteOf (e : JoinedSignal) : Site :=
  match e.join with
  | none => .alone e.signal.core
  | some name => .join name

/-- The signals of an arrival as their keys show them. -/
def cores (a : Arrival) : List Signal :=
  a.signals.map Signal.core

/-- The site of an arrival. -/
def site? (a : Arrival) : Option Site :=
  Site.of? a.join a.cores

/-- The signals at a site in the order in which they first occur. -/
def coresAt (entries : List JoinedSignal) (site : Site) : List Signal :=
  ((entries.filter fun e => siteOf e = site).map fun e => e.signal.core).eraseDups

section Sites

theorem siteOf_core (e : JoinedSignal) : siteOf e.core = siteOf e := by
  obtain ⟨signal, join⟩ := e
  cases join with
  | none => exact congrArg Site.alone signal.core_core
  | some name => rfl

theorem join?_siteOf (e : JoinedSignal) : (siteOf e).join? = e.join := by
  obtain ⟨signal, join⟩ := e
  cases join <;> rfl

theorem key_siteOf (e : JoinedSignal) : (siteOf e).key = keyOf e := by
  obtain ⟨signal, join⟩ := e
  cases join with
  | none => exact congrArg ("signal:" ++ ·) signal.key_core
  | some name => rfl

/-- Keys tell sites apart. -/
theorem keyOf_eq_iff {e other : JoinedSignal} :
    keyOf e = keyOf other ↔ siteOf e = siteOf other := by
  constructor
  · intro hKey
    have hJoin := join_eq_of_keyOf hKey
    obtain ⟨signal, join⟩ := e
    obtain ⟨signal', join'⟩ := other
    subst hJoin
    cases join with
    | none =>
        have hSignal : signal.key = signal'.key := by simpa [keyOf] using hKey
        exact congrArg Site.alone (Signal.core_eq_of_key hSignal)
    | some name => rfl
  · intro hSite
    rw [← key_siteOf e, hSite, key_siteOf]

end Sites

theorem coresAt_concat (entries : List JoinedSignal) (e : JoinedSignal) (site : Site) :
    coresAt (entries ++ [e]) site =
      if siteOf e = site then
        if e.signal.core ∈ coresAt entries site then coresAt entries site
        else coresAt entries site ++ [e.signal.core]
      else coresAt entries site := by
  unfold coresAt
  rw [List.filter_append]
  split
  next hSite =>
    rw [List.filter_cons_of_pos (by simpa using hSite), List.filter_nil, List.map_append,
      List.map_singleton, eraseDups_concat]
    simp only [List.mem_eraseDups]
  next hOther =>
    rw [List.filter_cons_of_neg (by simpa using hOther), List.filter_nil, List.append_nil]

/-- The signals at a site where nothing arrives. -/
theorem coresAt_eq_nil {entries : List JoinedSignal} {site : Site}
    (hSite : site ∉ entries.map siteOf) : coresAt entries site = [] := by
  have hNone : entries.filter (fun e => siteOf e = site) = [] := by
    rw [List.filter_eq_nil_iff]
    intro e hMem hSame
    exact hSite (List.mem_map.mpr ⟨e, hMem, by simpa using hSame⟩)
  rw [coresAt, hNone]
  rfl

theorem mem_coresAt {entries : List JoinedSignal} {site : Site} {signal : Signal} :
    signal ∈ coresAt entries site ↔ ∃ e ∈ entries, siteOf e = site ∧ e.signal.core = signal := by
  simp [coresAt, and_assoc]

theorem coresAt_core (entries : List JoinedSignal) (site : Site) :
    coresAt (entries.map JoinedSignal.core) site = coresAt entries site := by
  unfold coresAt
  rw [List.filter_map, List.map_map]
  congr 2
  · funext e
    exact e.signal.core_core
  · congr 1
    funext e
    simp only [Function.comp_apply, siteOf_core]

theorem cores_addSignal (a : Arrival) (signal : Signal) :
    (a.addSignal signal).cores =
      if signal.core ∈ a.cores then a.cores else a.cores ++ [signal.core] := by
  have hKnown : (a.signals.any fun other => other.key == signal.key) = true ↔
      signal.core ∈ a.cores := by
    simp [cores, Signal.key_eq_iff]
  unfold addSignal
  by_cases hMem : signal.core ∈ a.cores
  · rw [if_pos (hKnown.mpr hMem), if_pos hMem]
  · rw [if_neg (fun hAny => hMem (hKnown.mp hAny)), if_neg hMem, cores, List.map_append]
    rfl

/-- What a group shows: its key, its join and its signals. -/
def shown (group : String × Arrival) : String × Option String × List Signal :=
  (group.1, group.2.join, group.2.cores)

/-- What the group of a site shows. -/
def shownAt (entries : List JoinedSignal) (site : Site) : String × Option String × List Signal :=
  (site.key, site.join?, coresAt entries site)

section Group

variable {entries : List JoinedSignal} {e : JoinedSignal}

theorem shownAt_concat_of_ne {site : Site} (hSite : siteOf e ≠ site) :
    shownAt (entries ++ [e]) site = shownAt entries site := by
  unfold shownAt
  rw [coresAt_concat, if_neg hSite]

/-- Placing one more signal adds it to its site, which is the last one if it is new. -/
theorem map_shown_place {sites : List Site} {groups : List (String × Arrival)}
    (hShown : groups.map shown = sites.map (shownAt entries)) (hSites : sites.Nodup)
    (hKeys : ∀ site ∈ sites, keyOf e = site.key → siteOf e = site)
    (hNew : siteOf e ∉ sites → coresAt entries (siteOf e) = []) :
    (place e groups).map shown =
      (if siteOf e ∈ sites then sites else sites ++ [siteOf e]).map
        (shownAt (entries ++ [e])) := by
  induction sites generalizing groups with
  | nil =>
      obtain rfl : groups = [] := List.map_eq_nil_iff.mp hShown
      have hOwn : coresAt (entries ++ [e]) (siteOf e) = [e.signal.core] := by
        rw [coresAt_concat, if_pos rfl, hNew List.not_mem_nil]
        rfl
      rw [if_neg List.not_mem_nil, List.nil_append, List.map_singleton, shownAt, hOwn, key_siteOf,
        join?_siteOf]
      rfl
  | cons site others ih =>
      obtain ⟨⟨key, a⟩, rest, rfl⟩ : ∃ head rest, groups = head :: rest := by
        cases groups with
        | nil => cases hShown
        | cons head rest => exact ⟨head, rest, rfl⟩
      obtain ⟨hHead, hRest⟩ := List.cons.inj hShown
      obtain ⟨rfl, hHead⟩ := Prod.mk.inj hHead
      obtain ⟨hJoin, hCores⟩ := Prod.mk.inj hHead
      obtain ⟨hFresh, hOthers⟩ := List.nodup_cons.mp hSites
      by_cases hSite : siteOf e = site
      · subst hSite
        -- The signal joins the first group, and the others stay as they are.
        have hGrown : shown ((siteOf e).key, a.addSignal e.signal) =
            shownAt (entries ++ [e]) (siteOf e) := by
          simp only [shown, shownAt, cores_addSignal, coresAt_concat, if_true, join_addSignal]
          rw [← hCores, ← hJoin]
        have hKept : others.map (shownAt (entries ++ [e])) = others.map (shownAt entries) := by
          refine List.map_congr_left fun other hOther => shownAt_concat_of_ne ?_
          rintro rfl
          exact hFresh hOther
        rw [place, if_pos (beq_iff_eq.mpr (key_siteOf e)), if_pos List.mem_cons_self, List.map_cons,
          List.map_cons, hGrown, hKept, hRest]
      · have hKey : site.key ≠ keyOf e :=
          fun hSame => hSite (hKeys site List.mem_cons_self hSame.symm)
        have hLater := ih hRest hOthers
          (fun other hOther => hKeys other (List.mem_cons_of_mem _ hOther))
          (fun hNone => hNew fun hMem => hNone ((List.mem_cons.mp hMem).resolve_left hSite))
        have hFirst : shown (site.key, a) = shownAt (entries ++ [e]) site := by
          rw [shownAt_concat_of_ne hSite, shownAt, ← hJoin, ← hCores]
          rfl
        have hSites : (if siteOf e ∈ site :: others then site :: others
            else site :: others ++ [siteOf e]) =
            site :: (if siteOf e ∈ others then others else others ++ [siteOf e]) := by
          simp only [List.mem_cons, hSite, false_or]
          split <;> rfl
        rw [place, if_neg (by simpa using hKey), List.map_cons, hLater, hSites, List.map_cons,
          hFirst]

variable (entries) in
/-- The sites of signals in the order in which they first occur. -/
def sites : List Site :=
  (entries.map siteOf).eraseDups

theorem mem_sites {site : Site} : site ∈ sites entries ↔ ∃ e ∈ entries, siteOf e = site := by
  rw [sites, List.mem_eraseDups, List.mem_map]

/-- The groups made are those of the sites. -/
theorem map_shown_groups (entries : List JoinedSignal) :
    (entries.foldl (fun acc e => place e acc) []).map shown =
      (sites entries).map (shownAt entries) := by
  induction entries using List.reverseRecOn with
  | nil => rfl
  | append_singleton entries e ih =>
      have hKeys : ∀ site ∈ sites entries, keyOf e = site.key → siteOf e = site := by
        intro site hSite hKey
        obtain ⟨other, -, rfl⟩ := mem_sites.mp hSite
        rw [key_siteOf] at hKey
        exact keyOf_eq_iff.mp hKey
      have hNew : siteOf e ∉ sites entries → coresAt entries (siteOf e) = [] :=
        fun hSite => coresAt_eq_nil fun hMem => hSite (List.mem_eraseDups.mpr hMem)
      have hSites : sites (entries ++ [e]) =
          if siteOf e ∈ sites entries then sites entries else sites entries ++ [siteOf e] := by
        rw [sites, List.map_append, List.map_singleton, eraseDups_concat]
        simp only [sites, List.mem_eraseDups]
      rw [List.foldl_append, List.foldl_cons, List.foldl_nil, hSites]
      exact map_shown_place ih (nodup_eraseDups _) hKeys hNew

/-- The arrivals are those of the sites, each with the signals there. -/
theorem map_shown_group (entries : List JoinedSignal) :
    (group entries).map (fun a => (a.join, a.cores)) =
      (sites entries).map fun site => (site.join?, coresAt entries site) := by
  have hShown := congrArg (List.map Prod.snd) (map_shown_groups entries)
  rw [List.map_map, List.map_map] at hShown
  rw [group, List.map_map]
  exact hShown

theorem exists_site_of_mem_group {a : Arrival} (hMem : a ∈ group entries) :
    ∃ site ∈ sites entries, a.join = site.join? ∧ a.cores = coresAt entries site := by
  have hShown : (a.join, a.cores) ∈ (group entries).map fun a => (a.join, a.cores) :=
    List.mem_map_of_mem hMem
  rw [map_shown_group] at hShown
  obtain ⟨site, hSite, hSame⟩ := List.mem_map.mp hShown
  obtain ⟨hJoin, hCores⟩ := Prod.mk.inj hSame
  exact ⟨site, hSite, hJoin.symm, hCores.symm⟩

theorem exists_arrival_of_mem_sites {site : Site} (hSite : site ∈ sites entries) :
    ∃ a ∈ group entries, a.join = site.join? ∧ a.cores = coresAt entries site := by
  have hShown : (site.join?, coresAt entries site) ∈
      (sites entries).map fun site => (site.join?, coresAt entries site) :=
    List.mem_map_of_mem hSite
  rw [← map_shown_group] at hShown
  obtain ⟨a, hMem, hSame⟩ := List.mem_map.mp hShown
  obtain ⟨hJoin, hCores⟩ := Prod.mk.inj hSame
  exact ⟨a, hMem, hJoin, hCores⟩

/-- A signal that arrives on its own is the only one at its site. -/
theorem coresAt_alone {signal : Signal} (hSite : .alone signal ∈ sites entries) :
    coresAt entries (.alone signal) = [signal] := by
  have hOnly : ∀ other ∈ coresAt entries (.alone signal), other = signal := by
    intro other hOther
    obtain ⟨e, -, hAlone, rfl⟩ := mem_coresAt.mp hOther
    obtain ⟨sent, join⟩ := e
    cases join with
    | none => exact Site.alone.inj hAlone
    | some name => cases hAlone
  have hDistinct : (coresAt entries (.alone signal)).Nodup := nodup_eraseDups _
  obtain ⟨e, hMem, hAlone⟩ := mem_sites.mp hSite
  have hSome := mem_coresAt.mpr ⟨e, hMem, hAlone, rfl⟩
  rw [hOnly _ hSome] at hSome
  -- A list of one signal only, without repetitions and not empty, has length one.
  have hConstant := List.eq_replicate_iff.mpr ⟨rfl, hOnly⟩
  rw [hConstant, List.nodup_replicate] at hDistinct
  have hPositive := List.length_pos_of_mem hSome
  rw [hConstant, show (coresAt entries (.alone signal)).length = 1 by omega]
  rfl

/-- A site is known by its join and the signals there. -/
theorem of?_coresAt {site : Site} (hSite : site ∈ sites entries) :
    Site.of? site.join? (coresAt entries site) = some site := by
  cases site with
  | join name => rfl
  | alone signal =>
      rw [coresAt_alone hSite]
      rfl

theorem map_site?_group (entries : List JoinedSignal) :
    (group entries).map site? = (sites entries).map some :=
  calc (group entries).map site?
      = ((group entries).map fun a => (a.join, a.cores)).map fun shown =>
          Site.of? shown.1 shown.2 := by
        rw [List.map_map]
        rfl
    _ = (sites entries).map fun site => Site.of? site.join? (coresAt entries site) := by
        rw [map_shown_group, List.map_map]
        rfl
    _ = (sites entries).map some :=
        List.map_congr_left fun _ hSite => of?_coresAt hSite

theorem nodup_site?_group (entries : List JoinedSignal) : ((group entries).map site?).Nodup := by
  rw [map_site?_group]
  exact (nodup_eraseDups _).map fun _ _ hSame => Option.some.inj hSame

/-- An arrival is at the site of each of its signals. -/
theorem site?_of_mem_signals {a : Arrival} {signal : Signal} (hMem : a ∈ group entries)
    (hSignal : signal ∈ a.signals) : a.site? = some (siteOf ⟨signal, a.join⟩) := by
  obtain ⟨site, hSite, hJoin, hCores⟩ := exists_site_of_mem_group hMem
  have hOwn : a.site? = some site := by
    rw [site?, hJoin, hCores, of?_coresAt hSite]
  rw [hOwn]
  cases site with
  | join name =>
      rw [hJoin]
      rfl
  | alone sent =>
      have hCore : signal.core ∈ a.cores := List.mem_map_of_mem hSignal
      rw [hCores, coresAt_alone hSite, List.mem_singleton] at hCore
      rw [hJoin, ← hCore]
      rfl

end Group

/-- The arrivals are an exact partition of signals, each given with the join at which it is
gathered. -/
structure Partition (pairs : List JoinedSignal) (found : List Arrival) : Prop where
  /-- Every signal gathered at a join lies in the one arrival of that join. -/
  joined : ∀ signal name, ⟨signal, some name⟩ ∈ pairs →
    ∃ a ∈ found, a.join = some name ∧ signal ∈ a.cores ∧ ∀ b ∈ found, b.join = some name → b = a
  /-- Every other signal is an arrival of its own. -/
  alone : ∀ signal, ⟨signal, none⟩ ∈ pairs →
    ∃ a ∈ found, a.join = none ∧ a.cores = [signal] ∧
      ∀ b ∈ found, b.join = none → signal ∈ b.cores → b = a
  /-- Nothing else arrives. -/
  sound : ∀ a ∈ found, a.cores ≠ [] ∧ ∀ signal ∈ a.cores, ⟨signal, a.join⟩ ∈ pairs
  distinct : ∀ a ∈ found, a.cores.Nodup
  /-- No two arrivals have the same key. -/
  apart : found.Pairwise fun a b => ∀ signal ∈ a.signals, ∀ other ∈ b.signals,
    keyOf ⟨signal, a.join⟩ ≠ keyOf ⟨other, b.join⟩
  /-- Arrivals stand in the order in which their sites first occur, -/
  sites : found.map site? = (pairs.map siteOf).eraseDups.map some
  /-- and the signals of each in the order in which they first occur. -/
  signals : ∀ a ∈ found, ∀ site, a.site? = some site →
    a.cores = ((pairs.filter fun e => siteOf e = site).map JoinedSignal.signal).eraseDups

/-- Sites do not depend on what no key shows. -/
theorem sites_core (entries : List JoinedSignal) :
    sites (entries.map JoinedSignal.core) = sites entries := by
  have hSites : siteOf ∘ JoinedSignal.core = siteOf := funext siteOf_core
  rw [sites, List.map_map, hSites]
  rfl

theorem map_signal_core (entries : List JoinedSignal) (site : Site) :
    ((entries.map JoinedSignal.core).filter fun e => siteOf e = site).map JoinedSignal.signal =
      ((entries.map JoinedSignal.core).filter fun e => siteOf e = site).map
        fun e => e.signal.core := by
  refine List.map_congr_left fun e hMem => ?_
  obtain ⟨other, -, rfl⟩ := List.mem_map.mp (List.mem_of_mem_filter hMem)
  exact other.signal.core_core.symm

/-- Grouping is an exact partition. -/
theorem partition_group (entries : List JoinedSignal) :
    Partition (entries.map JoinedSignal.core) (group entries) where
  joined := by
    intro signal name hPair
    obtain ⟨e, hEntry, hCore⟩ := List.mem_map.mp hPair
    obtain ⟨rfl, hName⟩ := JoinedSignal.mk.inj hCore
    have hSite : siteOf e = .join name := by
      rw [siteOf, hName]
    obtain ⟨a, hMem, hJoin, hCores⟩ :=
      exists_arrival_of_mem_sites (mem_sites.mpr ⟨e, hEntry, hSite⟩)
    refine ⟨a, hMem, hJoin, ?_, ?_⟩
    · rw [hCores]
      exact mem_coresAt.mpr ⟨e, hEntry, hSite, rfl⟩
    · intro b hOther hSame
      refine List.inj_on_of_nodup_map (nodup_site?_group entries) hOther hMem ?_
      rw [site?, site?, hSame, hJoin]
      rfl
  alone := by
    intro signal hPair
    obtain ⟨e, hEntry, hCore⟩ := List.mem_map.mp hPair
    obtain ⟨rfl, hNone⟩ := JoinedSignal.mk.inj hCore
    have hSite : siteOf e = .alone e.signal.core := by
      rw [siteOf, hNone]
    have hKnown := mem_sites.mpr ⟨e, hEntry, hSite⟩
    obtain ⟨a, hMem, hJoin, hCores⟩ := exists_arrival_of_mem_sites hKnown
    rw [coresAt_alone hKnown] at hCores
    refine ⟨a, hMem, hJoin, hCores, ?_⟩
    intro b hOther hSame hSignal
    obtain ⟨sent, hSent, hShown⟩ := List.mem_map.mp hSignal
    refine List.inj_on_of_nodup_map (nodup_site?_group entries) hOther hMem ?_
    rw [site?_of_mem_signals hOther hSent, site?, hSame, hJoin, hCores, siteOf, hShown]
    rfl
  sound := by
    intro a hMem
    constructor
    · intro hNone
      exact signals_ne_nil_of_mem_group hMem (List.map_eq_nil_iff.mp hNone)
    · intro signal hSignal
      obtain ⟨sent, hSent, rfl⟩ := List.mem_map.mp hSignal
      exact List.mem_map.mpr ⟨_, mem_of_mem_group hMem hSent, rfl⟩
  distinct := by
    intro a hMem
    obtain ⟨site, -, -, hCores⟩ := exists_site_of_mem_group hMem
    rw [hCores]
    exact nodup_eraseDups _
  apart := by
    have hSites := List.pairwise_map.mp (nodup_site?_group entries)
    refine hSites.imp_of_mem fun {a b} hMem hOther hApart signal hSignal other hSent hKey => ?_
    apply hApart
    rw [site?_of_mem_signals hMem hSignal, site?_of_mem_signals hOther hSent,
      keyOf_eq_iff.mp hKey]
  sites := by
    rw [map_site?_group, ← sites_core]
    rfl
  signals := by
    intro a hMem site hSite
    obtain ⟨own, hOwn, hJoin, hCores⟩ := exists_site_of_mem_group hMem
    have hSame : own = site := by
      rw [site?, hJoin, hCores, of?_coresAt hOwn] at hSite
      exact Option.some.inj hSite
    rw [hCores, hSame, ← coresAt_core, map_signal_core]
    rfl

end Arrival

namespace TriggerRule

/-- The rule is the one that the arrivals ask for. -/
structure Fits (rule : TriggerRule) (found : List Arrival) : Prop where
  none : found = [] → rule = .allSuccess
  failures : rule = .oneFailed ↔ found ≠ [] ∧ ∀ a ∈ found, ∃ task, a.signals = [.failure task]
  several : rule = .oneSuccess ↔ rule ≠ .oneFailed ∧ 1 < found.length
  gathered : rule = .noneFailedMinOneSuccess ↔
    rule ≠ .oneFailed ∧ ∃ only, found = [only] ∧ 1 < only.signals.length

theorem onlyFailures_iff {a : Arrival} :
    a.onlyFailures = true ↔ ∃ task, a.signals = [.failure task] := by
  obtain ⟨join, signals⟩ := a
  constructor
  · intro hOnly
    unfold Arrival.onlyFailures at hOnly
    split at hOnly
    next signal hSignals =>
      cases signal with
      | success task => cases hOnly
      | failure task => exact ⟨task, hSignals⟩
      | branch step => cases hOnly
    next => cases hOnly
  · rintro ⟨task, rfl⟩
    rfl

theorem fits_ofArrivals (found : List Arrival) : (ofArrivals found).Fits found := by
  cases found with
  | nil => exact ⟨fun _ => rfl, by simp [ofArrivals], by simp [ofArrivals], by simp [ofArrivals]⟩
  | cons first others =>
      have hFailed : ofArrivals (first :: others) = .oneFailed ↔
          ∀ a ∈ first :: others, ∃ task, a.signals = [.failure task] := by
        rw [ofArrivals_eq_oneFailed_iff, List.all_eq_true]
        exact forall₂_congr fun _ _ => onlyFailures_iff
      refine ⟨fun hNone => absurd hNone (List.cons_ne_nil _ _), ?_, ?_, ?_⟩
      · rw [hFailed]
        exact ⟨fun hAll => ⟨List.cons_ne_nil _ _, hAll⟩, And.right⟩
      · by_cases hRule : ofArrivals (first :: others) = .oneFailed
        · simp [hRule]
        · cases others with
          | nil =>
              rw [ofArrivals_single hRule]
              split <;> simp
          | cons second rest =>
              have hSeveral := ofArrivals_several hRule (fun _ hOnly => by cases hOnly)
              rw [hSeveral.resolve_left (List.cons_ne_nil _ _)]
              simp
      · by_cases hRule : ofArrivals (first :: others) = .oneFailed
        · simp [hRule]
        · cases others with
          | nil =>
              rw [ofArrivals_single hRule]
              split <;> simp_all
          | cons second rest =>
              have hSeveral := ofArrivals_several hRule (fun _ hOnly => by cases hOnly)
              rw [hSeveral.resolve_left (List.cons_ne_nil _ _)]
              simp

/-- What the rule depends on of an arrival: whether it is a failure on its own, and how many signals
it has. -/
def shapeOf (signals : List Signal) : Bool × Nat :=
  (Arrival.onlyFailures ⟨none, signals⟩, signals.length)

theorem shapeOf_cores (a : Arrival) : shapeOf a.cores = shapeOf a.signals := by
  obtain ⟨join, signals⟩ := a
  rcases signals with _ | ⟨signal, _ | ⟨second, rest⟩⟩
  · rfl
  · cases signal <;> rfl
  · simp [shapeOf, Arrival.cores, Arrival.onlyFailures]

theorem shapeOf_eq_of_perm {signals others : List Signal} (hPerm : signals.Perm others) :
    shapeOf signals = shapeOf others := by
  have hLength := hPerm.length_eq
  rcases signals with _ | ⟨signal, _ | ⟨second, rest⟩⟩
  · rw [List.nil_perm.mp hPerm]
  · rw [List.singleton_perm.mp hPerm]
  · rcases others with _ | ⟨other, _ | ⟨second', rest'⟩⟩
    · cases hLength
    · cases hLength
    · exact Prod.ext rfl hLength

/-- The order of arrivals does not matter to the rule. -/
theorem ofArrivals_eq_of_perm {found others : List Arrival}
    (hPerm : (found.map fun a => shapeOf a.signals).Perm (others.map fun a => shapeOf a.signals)) :
    ofArrivals found = ofArrivals others := by
  have hAll : found.all Arrival.onlyFailures = others.all Arrival.onlyFailures := by
    have hShapes := hPerm.all_eq (f := Prod.fst)
    rw [List.all_map, List.all_map] at hShapes
    exact hShapes
  have hLength := hPerm.length_eq
  rw [List.length_map, List.length_map] at hLength
  rcases found with _ | ⟨a, _ | ⟨a', rest⟩⟩
  · rw [List.length_eq_zero_iff.mp hLength.symm]
  · obtain ⟨b, rfl⟩ := List.length_eq_one_iff.mp hLength.symm
    have hShape := List.singleton_perm_singleton.mp hPerm
    have hSignals : a.signals.length = b.signals.length := congrArg Prod.snd hShape
    simp only [ofArrivals, hAll, hSignals]
  · rcases others with _ | ⟨b, _ | ⟨b', rest'⟩⟩
    · cases hLength
    · cases hLength
    · simp only [ofArrivals, hAll]
      rfl

end TriggerRule

namespace Arrival

variable {entries others : List JoinedSignal}

/-- The shapes of arrivals are those of the sites. -/
theorem map_shapeOf_group (entries : List JoinedSignal) :
    (group entries).map (fun a => TriggerRule.shapeOf a.signals) =
      (sites entries).map fun site => TriggerRule.shapeOf (coresAt entries site) := by
  have hShown := congrArg (List.map fun shown => TriggerRule.shapeOf shown.2)
    (map_shown_group entries)
  rw [List.map_map, List.map_map] at hShown
  calc (group entries).map (fun a => TriggerRule.shapeOf a.signals)
      = (group entries).map fun a => TriggerRule.shapeOf a.cores :=
        List.map_congr_left fun a _ => (TriggerRule.shapeOf_cores a).symm
    _ = (sites entries).map fun site => TriggerRule.shapeOf (coresAt entries site) := hShown

/-- Lists without repetitions that hold the same are the same up to order. -/
theorem perm_eraseDups {α : Type} [DecidableEq α] {items others : List α}
    (hSame : ∀ item, item ∈ items ↔ item ∈ others) : items.eraseDups.Perm others.eraseDups := by
  refine (List.perm_ext_iff_of_nodup (nodup_eraseDups _) (nodup_eraseDups _)).mpr fun item => ?_
  rw [List.mem_eraseDups, List.mem_eraseDups, hSame]

/-- Which signals there are decides the shapes of arrivals, up to their order. -/
theorem perm_shapeOf_group
    (hSame : ∀ e, e ∈ entries.map JoinedSignal.core ↔ e ∈ others.map JoinedSignal.core) :
    ((group entries).map fun a => TriggerRule.shapeOf a.signals).Perm
      ((group others).map fun a => TriggerRule.shapeOf a.signals) := by
  have hSites : (sites entries).Perm (sites others) := by
    rw [← sites_core entries, ← sites_core others]
    refine perm_eraseDups fun site => ?_
    simp only [List.mem_map (f := siteOf), hSame]
  have hCores : ∀ site, (coresAt entries site).Perm (coresAt others site) := by
    intro site
    rw [← coresAt_core entries, ← coresAt_core others]
    refine perm_eraseDups fun signal => ?_
    simp only [List.mem_map (f := fun e : JoinedSignal => e.signal.core), List.mem_filter, hSame]
  have hShapes : (fun site => TriggerRule.shapeOf (coresAt entries site)) =
      fun site => TriggerRule.shapeOf (coresAt others site) :=
    funext fun site => TriggerRule.shapeOf_eq_of_perm (hCores site)
  rw [map_shapeOf_group, map_shapeOf_group, hShapes]
  exact hSites.map _

end Arrival

/-- Arrivals are an exact partition of the signals that dependencies bring, and the trigger rule is
the one that the arrivals ask for.  Dependencies that bring the same signals have the same rule, in
whatever order and however often they bring them. -/
theorem arrivals_partition_signals (dependencies : List Dependency) :
    Arrival.Partition (signalPairs dependencies) (arrivals dependencies) ∧
    (TriggerRule.ofDependencies dependencies).Fits (arrivals dependencies) ∧
    (∀ others, (∀ pair, pair ∈ signalPairs others ↔ pair ∈ signalPairs dependencies) →
      TriggerRule.ofDependencies others = TriggerRule.ofDependencies dependencies) ∧
    ∀ others, (∀ d, d ∈ others ↔ d ∈ dependencies) →
      TriggerRule.ofDependencies others = TriggerRule.ofDependencies dependencies := by
  have hSet : ∀ others, (∀ pair, pair ∈ signalPairs others ↔ pair ∈ signalPairs dependencies) →
      TriggerRule.ofDependencies others = TriggerRule.ofDependencies dependencies :=
    fun others hSame => TriggerRule.ofArrivals_eq_of_perm (Arrival.perm_shapeOf_group hSame)
  refine ⟨Arrival.partition_group _, TriggerRule.fits_ofArrivals _, hSet, ?_⟩
  intro others hSame
  refine hSet others fun pair => ?_
  simp only [signalPairs, joinedSignals, List.mem_map, List.mem_filterMap, hSame]

end WorkflowDag
