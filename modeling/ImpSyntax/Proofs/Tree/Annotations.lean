import ImpSyntax.Proofs.Tree.Preorder

/-!
# Values that are set once

A table is asked one request after the other. What it answers can be read off the requests before: the
first value that was set for a node under a key is found from then on, every later one is refused, and
a refusal changes nothing. No slot of a table is ever empty, although a slot is made before it is known
whether a value goes into it: where the value is refused, the slot has been there before. Hence the
slots are those of the nodes that have a value.

Main results:

* `Annotations.tells_behind` — the table behind requests, as told by these.
* `Annotations.answer_congr` — an answer about a site hangs on what was set first for it.
* `Annotations.answer_again` — a request that was refused can be left out.
* `Annotations.writeOnce` — what is answered behind any requests.
-/

namespace ImpSyntax

/-! ## Sites -/

theorem Node.mem_sites_iff {n : Node} {site : Site} :
    site ∈ n.sites ↔ n.preorder[site.place]? = some site.node := by
  rw [sites, List.mem_map]
  constructor
  · rintro ⟨⟨node, place⟩, mem, rfl⟩
    simpa using List.mem_zipIdx_iff_getElem?.mp mem
  · intro there
    exact ⟨(site.node, site.place), List.mem_zipIdx_iff_getElem?.mpr there, rfl⟩

/-- A site is known by its place. -/
theorem Node.site_eq_of_place_eq {n : Node} {a b : Site} (ha : a ∈ n.sites) (hb : b ∈ n.sites)
    (same : a.place = b.place) : a = b := by
  obtain ⟨place, node⟩ := a
  obtain ⟨place', node'⟩ := b
  have here := mem_sites_iff.mp ha
  have there := mem_sites_iff.mp hb
  dsimp only at same here there
  subst same
  rw [here] at there
  cases there
  rfl

theorem Node.nodup_places (n : Node) : (n.sites.map Site.place).Nodup := by
  have places : n.sites.map Site.place = n.preorder.zipIdx.map Prod.snd := by
    rw [sites, List.map_map]
    rfl
  rw [places, List.zipIdx_map_snd]
  exact List.nodup_range'

/-- The first child of a node has the place behind that of the node. -/
theorem Node.first_child_mem_sites {n : Node} {site : Site} (mem : site ∈ n.sites)
    {child : Role × Node} (first : site.node.children.head? = some child) :
    ⟨site.place + 1, child.2⟩ ∈ n.sites :=
  mem_sites_iff.mpr (getElem?_preorder_succ n (mem_sites_iff.mp mem) first)

/-! ## Requests -/

/-- What a table can be asked. -/
inductive Request (α : Type)
  | set (site : Site) (key : String) (value : α)
  | get (site : Site) (key : String)
  | contains (site : Site) (key : String)
  | annotations (site : Site)
  | size
  | isEmpty

/-- What a table answers: that the value is set, or why it is not; and what it was asked for. -/
inductive Answer (α : Type)
  | done
  | refused (e : AlreadySet)
  | found (value : Option α)
  | holds (is : Bool)
  | values (entries : Option (List (String × α)))
  | count (n : Nat)

variable {α : Type}

namespace Request

/-- The site that is asked about. -/
def site? : Request α → Option Site
  | set site .. | get site _ | contains site _ | annotations site => some site
  | size | isEmpty => none

/-- The value that is to be set for the site under the key. -/
def setting? (site : Site) (key : String) : Request α → Option α
  | set other otherKey value => if other = site ∧ otherKey = key then some value else none
  | _ => none

end Request

/-- The first value that was to be set for the site under the key. -/
def firstSet (past : List (Request α)) (site : Site) (key : String) : Option α :=
  past.findSome? (·.setting? site key)

theorem firstSet_append (past later : List (Request α)) (site : Site) (key : String) :
    firstSet (past ++ later) site key = (firstSet past site key).or (firstSet later site key) :=
  List.findSome?_append

theorem firstSet_concat (past : List (Request α)) (r : Request α) (site : Site) (key : String) :
    firstSet (past ++ [r]) site key = (firstSet past site key).or (r.setting? site key) := by
  have one : firstSet [r] site key = r.setting? site key := by
    rw [firstSet, List.findSome?_cons]
    cases r.setting? site key <;> rfl
  rw [firstSet_append, one]

/-- To set a value once more is without effect on what was set first. -/
theorem firstSet_again {past : List (Request α)} {site : Site} {key : String}
    (first : (firstSet past site key).isSome = true) (value : α) (later : List (Request α))
    (other : Site) (otherKey : String) :
    firstSet (past ++ .set site key value :: later) other otherKey =
      firstSet (past ++ later) other otherKey := by
  rw [List.append_cons, firstSet_append, firstSet_concat, firstSet_append, Request.setting?]
  split
  · next here =>
    obtain ⟨rfl, rfl⟩ := here
    obtain ⟨value, first⟩ := Option.isSome_iff_exists.mp first
    rw [first, Option.some_or]
  · rw [Option.or_none]

/-- Requests about another site are without effect on what was set first. -/
theorem firstSet_filter {site other : Site} (apart : other ≠ site) (past : List (Request α))
    (key : String) :
    firstSet (past.filter fun r => r.site? ≠ some other) site key = firstSet past site key := by
  induction past with
  | nil => rfl
  | cons r past ih =>
    rw [List.filter_cons]
    split
    · rw [firstSet, firstSet, List.findSome?_cons, List.findSome?_cons]
      split
      · rfl
      · exact ih
    · next dropped =>
      have nothing : r.setting? site key = none := by
        cases r with
        | set there otherKey value =>
          have : there = other := by simpa [Request.site?] using dropped
          rw [Request.setting?, if_neg fun here => apart (this.symm.trans here.1)]
        | get | contains | annotations | size | isEmpty => rfl
      rw [ih, firstSet, firstSet, List.findSome?_cons, nothing]

namespace Annotations

/-- The answer to a request, and the table behind it. -/
def serve (t : Annotations α) : Request α → Answer α × Annotations α
  | .set site key value =>
    match t.set site key value with
    | .ok t' => (.done, t')
    | .error e => (.refused e.toAlreadySet, e.table)
  | .get site key => (.found (t.get? site key), t)
  | .contains site key => (.holds (t.contains site key), t)
  | .annotations site => (.values ((t.annotations? site).map Std.TreeMap.toList), t)
  | .size => (.count t.size, t)
  | .isEmpty => (.holds t.isEmpty, t)

/-- The table behind the requests. -/
def behind (t : Annotations α) (past : List (Request α)) : Annotations α :=
  past.foldl (fun t r => (t.serve r).2) t

/-- The answer of a table that was new in front of the requests `past`. -/
def answer (past : List (Request α)) (r : Request α) : Answer α := ((empty.behind past).serve r).1

/-! ## One request -/

section Step

variable (t : Annotations α) (site other : Site) (key : String) (value : α)

theorem serve_set : t.serve (.set site key value) =
    if t.contains site key then
      (.refused ⟨key, site.node.nodeClass, site.node.pos⟩, t.slotted site)
    else (.done, ⟨(t.slotted site).entries.insert site.place
      (((t.annotations? site).getD ∅).insert key value)⟩) := by
  rw [serve, set_eq]
  cases t.contains site key <;> rfl

/-- Behind a set the site has a slot, the same as before if the value is refused. -/
theorem annotations?_serve_set : (t.serve (.set site key value)).2.annotations? other =
    if other.place = site.place then
      some (if t.contains site key then (t.annotations? site).getD ∅
        else ((t.annotations? site).getD ∅).insert key value)
    else t.annotations? other := by
  have made := t.set_eq site key value
  rw [serve_set]
  cases there : t.contains site key with
  | true => exact t.annotations?_slotted site other
  | false =>
    rw [there] at made
    exact annotations?_of_set made other

theorem get?_congr {t t' : Annotations α} {a b : Site} (same : t.annotations? a = t'.annotations? b)
    (key : String) : t.get? a key = t'.get? b key := by
  rw [get?, get?, same]

theorem annotations?_of_place_eq {a b : Site} (same : a.place = b.place) :
    t.annotations? a = t.annotations? b := by
  rw [annotations?, annotations?, same]

/-- A value that is set is found where there was none. -/
theorem get?_serve_set (otherKey : String) :
    (t.serve (.set site key value)).2.get? other otherKey =
      (t.get? other otherKey).or
        (if other.place = site.place ∧ otherKey = key then some value else none) := by
  have made := t.set_eq site key value
  have held : t.contains site key = (t.get? site key).isSome := rfl
  rw [serve_set]
  cases there : t.contains site key with
  | true =>
    have kept : (t.slotted site).annotations? other = t.annotations? other := by
      rw [annotations?_slotted]
      split
      · next same =>
        rw [t.annotations?_of_place_eq same]
        cases slot : t.annotations? site with
        | none => simp [contains, get?, slot] at there
        | some values => rfl
      · rfl
    show (t.slotted site).get? other otherKey = _
    rw [get?_congr kept]
    split
    · next here =>
      obtain ⟨same, rfl⟩ := here
      rw [get?_congr (t.annotations?_of_place_eq same)]
      obtain ⟨first, found⟩ := Option.isSome_iff_exists.mp (held.symm.trans there)
      rw [found, Option.some_or]
    · rw [Option.or_none]
  | false =>
    rw [there] at made
    show (Annotations.mk _).get? other otherKey = _
    rw [get?_of_set made]
    split
    · next here =>
      obtain ⟨same, rfl⟩ := here
      have none : t.get? site otherKey = none :=
        Option.isNone_iff_eq_none.mp (Option.isSome_eq_false_iff.mp (held.symm.trans there))
      rw [get?_congr (t.annotations?_of_place_eq same), none, Option.none_or]
    · rw [Option.or_none]

end Step

/-! ## The table as told by the requests -/

/-- The table `t` of the sites is the one behind the requests `past`: it holds what was set first, none
of its slots is empty, and all of them are slots of the sites. -/
structure Tells (sites : List Site) (past : List (Request α)) (t : Annotations α) : Prop where
  get : ∀ site ∈ sites, ∀ key, t.get? site key = firstSet past site key
  filled : ∀ site values, t.annotations? site = some values → ∃ key, key ∈ values
  placed : ∀ site, (t.annotations? site).isSome = true → ∃ s ∈ sites, s.place = site.place

theorem tells_empty (sites : List Site) : Tells sites [] (empty : Annotations α) where
  get site _ key := by simp [get?, annotations?, empty, firstSet]
  filled site values none := by simp [annotations?, empty] at none
  placed site none := by simp [annotations?, empty] at none

/-- The requests are about sites of the tree. -/
def About (root : Node) (past : List (Request α)) : Prop :=
  ∀ r ∈ past, ∀ site ∈ r.site?, site ∈ root.sites

section Run

variable {root : Node} {past : List (Request α)} {t : Annotations α}

theorem About.append {later : List (Request α)} (about : About root past)
    (next : About root later) : About root (past ++ later) := fun q among =>
  (List.mem_append.mp among).elim (about q) (next q)

theorem Tells.serve (h : Tells root.sites past t) (r : Request α)
    (about : ∀ site ∈ r.site?, site ∈ root.sites) :
    Tells root.sites (past ++ [r]) (t.serve r).2 := by
  -- Only a set changes the table or adds to what was set.
  have unchanged : (∀ site key, r.setting? site key = none) → (t.serve r).2 = t →
      Tells root.sites (past ++ [r]) (t.serve r).2 := by
    intro nothing same
    rw [same]
    refine ⟨fun site mem key => ?_, h.filled, h.placed⟩
    rw [firstSet_concat, nothing, Option.or_none]
    exact h.get site mem key
  cases r with
  | set site key value =>
    have mem : site ∈ root.sites := about site rfl
    refine ⟨fun other memOther otherKey => ?_, fun other values there => ?_, fun other there => ?_⟩
    · have same :
          (other.place = site.place ∧ otherKey = key) ↔ (site = other ∧ key = otherKey) := by
        constructor
        · rintro ⟨place, rfl⟩
          exact ⟨Node.site_eq_of_place_eq mem memOther place.symm, rfl⟩
        · rintro ⟨rfl, rfl⟩
          exact ⟨rfl, rfl⟩
      rw [get?_serve_set, firstSet_concat, h.get other memOther, Request.setting?]
      simp only [same]
    · rw [annotations?_serve_set] at there
      split at there
      · cases held : t.contains site key with
        | true =>
          rw [held, if_pos rfl] at there
          cases there
          exact ⟨key, Std.TreeMap.mem_iff_contains.mpr ((t.contains_slot site key).trans held)⟩
        | false =>
          rw [held] at there
          cases there
          exact ⟨key, Std.TreeMap.mem_insert_self⟩
      · exact h.filled other values there
    · rw [annotations?_serve_set] at there
      split at there
      · next place => exact ⟨site, mem, place.symm⟩
      · exact h.placed other there
  | get | contains | annotations | size | isEmpty => exact unchanged (fun _ _ => rfl) rfl

theorem Tells.behind (h : Tells root.sites past t) {later : List (Request α)}
    (about : About root later) : Tells root.sites (past ++ later) (t.behind later) := by
  induction later generalizing past t with
  | nil => rwa [List.append_nil]
  | cons r later ih =>
    rw [List.append_cons]
    exact ih (h.serve r (about r List.mem_cons_self))
      fun q mem => about q (List.mem_cons_of_mem _ mem)

theorem tells_behind (about : About root past) : Tells root.sites past (empty.behind past) :=
  (tells_empty root.sites).behind about

end Run

/-! ## Listings -/

theorem lt_of_compare_eq_lt {a b : String} (h : compare a b = .lt) : a < b := by
  have unfolded : compareOfLessAndEq a b = .lt := h
  unfold compareOfLessAndEq at unfolded
  split at unfolded
  · assumption
  · split at unfolded <;> contradiction

/-- What is to be listed for the site: nothing if nothing was ever set for it, and otherwise the keys in
increasing order with what was set first. -/
inductive Lists (past : List (Request α)) (site : Site) : Option (List (String × α)) → Prop
  | nothing : (∀ key, firstSet past site key = none) → Lists past site none
  | entries {entries : List (String × α)} : entries ≠ [] →
    entries.Pairwise (fun a b => a.1 < b.1) →
    (∀ key value, (key, value) ∈ entries ↔ firstSet past site key = some value) →
    Lists past site (some entries)

theorem Tells.lists {sites : List Site} {past : List (Request α)} {t : Annotations α} {site : Site}
    (h : Tells sites past t) (mem : site ∈ sites) :
    Lists past site ((t.annotations? site).map Std.TreeMap.toList) := by
  cases slot : t.annotations? site with
  | none =>
    refine .nothing fun key => ?_
    rw [← h.get site mem, get?, slot]
    rfl
  | some values =>
    have found : ∀ key, values[key]? = firstSet past site key := by
      intro key
      rw [← h.get site mem, get?, slot]
      rfl
    refine .entries (fun empty => ?_) (Std.TreeMap.ordered_keys_toList.imp lt_of_compare_eq_lt)
      fun key value => ?_
    · obtain ⟨key, there⟩ := h.filled site values slot
      rw [Std.TreeMap.mem_iff_isSome_getElem?] at there
      obtain ⟨value, there⟩ := Option.isSome_iff_exists.mp there
      rw [← Std.TreeMap.mem_toList_iff_getElem?_eq_some, empty] at there
      contradiction
    · rw [Std.TreeMap.mem_toList_iff_getElem?_eq_some, found]

/-- There is one listing for what was set first. -/
theorem Lists.unique {past past' : List (Request α)} {site : Site}
    (same : ∀ key, firstSet past site key = firstSet past' site key)
    {listing listing' : Option (List (String × α))} (h : Lists past site listing)
    (h' : Lists past' site listing') : listing = listing' := by
  have nonempty : ∀ {entries : List (String × α)}, entries ≠ [] →
      ∃ key value, (key, value) ∈ entries :=
    fun {entries} h => ⟨(entries.head h).1, (entries.head h).2, List.head_mem h⟩
  have nodup : ∀ {entries : List (String × α)}, entries.Pairwise (fun a b => a.1 < b.1) →
      entries.Nodup := by
    intro entries sorted
    refine sorted.imp ?_
    rintro a _ less rfl
    exact String.lt_irrefl a.1 less
  cases h with
  | nothing none =>
    cases h' with
    | nothing _ => rfl
    | entries filled' _ mem' =>
      obtain ⟨key, value, there⟩ := nonempty filled'
      rw [mem', ← same, none] at there
      contradiction
  | entries filled sorted mem =>
    cases h' with
    | nothing none' =>
      obtain ⟨key, value, there⟩ := nonempty filled
      rw [mem, same, none'] at there
      contradiction
    | entries _ sorted' mem' =>
      have perm := (List.perm_ext_iff_of_nodup (nodup sorted) (nodup sorted')).mpr
        fun (key, value) => by rw [mem, mem', same]
      rw [perm.eq_of_pairwise (fun _ _ _ _ less greater => absurd greater (String.lt_asymm less))
        sorted sorted']

/-! ## How many nodes have a value -/

section Count

variable {root : Node} {past past' : List (Request α)} {t t' : Annotations α}

/-- A site has a slot when something was set for it. -/
theorem Tells.isSome_annotations?_iff (h : Tells root.sites past t) {site : Site}
    (mem : site ∈ root.sites) :
    (t.annotations? site).isSome = true ↔ ∃ key, (firstSet past site key).isSome = true := by
  constructor
  · intro slot
    obtain ⟨values, slot⟩ := Option.isSome_iff_exists.mp slot
    obtain ⟨key, there⟩ := h.filled site values slot
    refine ⟨key, ?_⟩
    rw [← h.get site mem, get?, slot]
    exact Std.TreeMap.mem_iff_isSome_getElem?.mp there
  · rintro ⟨key, first⟩
    rw [← h.get site mem, get?] at first
    cases slot : t.annotations? site with
    | none => rw [slot] at first; contradiction
    | some values => rfl

/-- The sites with a slot. -/
def markedSites (root : Node) (t : Annotations α) : List Site :=
  root.sites.filter fun site => (t.annotations? site).isSome

theorem nodup_markedSites (root : Node) (t : Annotations α) : (markedSites root t).Nodup := by
  have sites : root.sites.Pairwise (· ≠ ·) :=
    List.Pairwise.of_map Site.place (fun _ _ apart same => apart (congrArg _ same)) root.nodup_places
  exact List.Pairwise.filter _ sites

theorem Tells.size_eq (h : Tells root.sites past t) : t.size = (markedSites root t).length := by
  have keys : t.entries.keys.Nodup := by
    refine Std.TreeMap.distinct_keys.imp ?_
    rintro place _ distinct rfl
    exact distinct Std.ReflCmp.compare_self
  have places : ((markedSites root t).map Site.place).Nodup :=
    root.nodup_places.sublist (List.filter_sublist.map Site.place)
  have perm : t.entries.keys.Perm ((markedSites root t).map Site.place) := by
    refine (List.perm_ext_iff_of_nodup keys places).mpr fun place => ?_
    rw [Std.TreeMap.mem_keys, Std.TreeMap.mem_iff_isSome_getElem?, List.mem_map]
    constructor
    · intro slot
      obtain ⟨site, mem, rfl⟩ := h.placed ⟨place, root⟩ slot
      exact ⟨site, List.mem_filter.mpr ⟨mem, slot⟩, rfl⟩
    · rintro ⟨site, marked, rfl⟩
      exact (List.mem_filter.mp marked).2
  rw [size, ← Std.TreeMap.length_keys, perm.length_eq, List.length_map]

theorem Tells.isEmpty_eq (h : Tells root.sites past t) :
    t.isEmpty = (markedSites root t).isEmpty := by
  have count := h.size_eq
  rw [size] at count
  rw [isEmpty, Std.TreeMap.isEmpty_eq_size_eq_zero, count]
  cases markedSites root t <;> rfl

theorem Tells.markedSites_eq (h : Tells root.sites past t) (h' : Tells root.sites past' t')
    (same : ∀ site key, firstSet past site key = firstSet past' site key) :
    markedSites root t = markedSites root t' := by
  refine List.filter_congr fun site mem => Bool.eq_iff_iff.mpr ?_
  rw [h.isSome_annotations?_iff mem, h'.isSome_annotations?_iff mem]
  simp only [same]

end Count

/-! ## What is answered -/

section Answers

variable {root : Node} {past past' : List (Request α)}

theorem answer_get (about : About root past) {site : Site} (mem : site ∈ root.sites)
    (key : String) : answer past (.get site key) = .found (firstSet past site key) :=
  congrArg Answer.found ((tells_behind about).get site mem key)

theorem answer_contains (about : About root past) {site : Site} (mem : site ∈ root.sites)
    (key : String) :
    answer past (.contains site key) = .holds (firstSet past site key).isSome :=
  congrArg (Answer.holds ∘ Option.isSome) ((tells_behind about).get site mem key)

theorem answer_set (about : About root past) {site : Site} (mem : site ∈ root.sites) (key : String)
    (value : α) :
    answer past (.set site key value) =
      if (firstSet past site key).isSome then
        .refused ⟨key, site.node.nodeClass, site.node.pos⟩
      else .done := by
  rw [answer, serve_set, contains, (tells_behind about).get site mem key]
  split <;> rfl

theorem answer_annotations (about : About root past) {site : Site} (mem : site ∈ root.sites) :
    ∃ listing, answer past (.annotations site) = .values listing ∧ Lists past site listing :=
  ⟨_, rfl, (tells_behind about).lists mem⟩

/-- The answer about a site hangs on what was set first for it. -/
theorem answer_congr (about : About root past) (about' : About root past') {site : Site}
    (mem : site ∈ root.sites) (same : ∀ key, firstSet past site key = firstSet past' site key)
    {r : Request α} (asked : r.site? = some site) : answer past r = answer past' r := by
  cases r with
  | set _ key value =>
    cases asked
    rw [answer_set about mem, answer_set about' mem, same]
  | get _ key =>
    cases asked
    rw [answer_get about mem, answer_get about' mem, same]
  | contains _ key =>
    cases asked
    rw [answer_contains about mem, answer_contains about' mem, same]
  | annotations _ =>
    cases asked
    obtain ⟨listing, found, lists⟩ := answer_annotations about mem
    obtain ⟨listing', found', lists'⟩ := answer_annotations about' mem
    rw [found, found', Lists.unique same lists lists']
  | size | isEmpty => contradiction

/-- A value was set for the site. -/
def SetAt (past : List (Request α)) (site : Site) : Prop :=
  ∃ before key value after, past = before ++ .set site key value :: after ∧
    answer before (.set site key value) = .done

theorem setAt_iff (about : About root past) {site : Site} :
    SetAt past site ↔ site ∈ markedSites root (empty.behind past) := by
  have told := tells_behind about
  constructor
  · rintro ⟨before, key, value, after, rfl, -⟩
    have mem : site ∈ root.sites :=
      about (.set site key value) (List.mem_append_right _ List.mem_cons_self) site rfl
    refine List.mem_filter.mpr ⟨mem, (told.isSome_annotations?_iff mem).mpr ⟨key, ?_⟩⟩
    refine List.findSome?_isSome_iff.mpr
      ⟨.set site key value, List.mem_append_right _ List.mem_cons_self, ?_⟩
    simp [Request.setting?]
  · intro marked
    obtain ⟨mem, slot⟩ := List.mem_filter.mp marked
    obtain ⟨key, first⟩ := (told.isSome_annotations?_iff mem).mp slot
    obtain ⟨value, first⟩ := Option.isSome_iff_exists.mp first
    obtain ⟨before, r, after, rfl, sets, nothing⟩ := List.findSome?_eq_some_iff.mp first
    have early : About root before := fun q among => about q (List.mem_append_left _ among)
    cases r with
    | set other otherKey otherValue =>
      rw [Request.setting?] at sets
      split at sets
      · next here =>
        obtain ⟨rfl, rfl⟩ := here
        refine ⟨before, otherKey, otherValue, after, rfl, ?_⟩
        rw [answer_set early mem, firstSet, List.findSome?_eq_none_iff.mpr nothing]
        rfl
      · contradiction
    | get | contains | annotations | size | isEmpty => contradiction

/-- A request to set what is set already can be left out. -/
theorem answer_again (about : About root past) {site : Site} (mem : site ∈ root.sites)
    {key : String} (first : (firstSet past site key).isSome = true) (value : α)
    {later : List (Request α)} {r : Request α} (next : About root (r :: later)) :
    answer (past ++ .set site key value :: later) r = answer (past ++ later) r := by
  have aboutLater : About root later := fun q among => next q (List.mem_cons_of_mem _ among)
  have aboutAgain : About root (.set site key value :: later) := by
    intro q among
    rcases List.mem_cons.mp among with rfl | late
    · rintro _ ⟨⟩
      exact mem
    · exact aboutLater q late
  have again := about.append aboutAgain
  have without := about.append aboutLater
  have same := firstSet_again first value later
  have marked := (tells_behind again).markedSites_eq (tells_behind without) same
  have here : ∀ other, r.site? = some other →
      answer (past ++ .set site key value :: later) r = answer (past ++ later) r := by
    intro other asked
    exact answer_congr again without (next r List.mem_cons_self other asked) (same other) asked
  cases r with
  | set other | get other | contains other | annotations other => exact here other rfl
  | size =>
    refine congrArg Answer.count ?_
    rw [(tells_behind again).size_eq, (tells_behind without).size_eq, marked]
  | isEmpty =>
    refine congrArg Answer.holds ?_
    rw [(tells_behind again).isEmpty_eq, (tells_behind without).isEmpty_eq, marked]

theorem count_eq (about : About root past) :
    ∃ marked : List Site, marked.Nodup ∧ (∀ site, site ∈ marked ↔ SetAt past site) ∧
      answer past .size = .count marked.length ∧ answer past .isEmpty = .holds marked.isEmpty :=
  have told := tells_behind about
  ⟨markedSites root (empty.behind past), nodup_markedSites root _, fun _ => (setAt_iff about).symm,
    congrArg Answer.count told.size_eq, congrArg Answer.holds told.isEmpty_eq⟩

/-- What a table answers behind the requests `past` about sites of a tree.

* What is found for a site under a key is what was set first.
* A value is refused if there is one already, with the key, the class and the position of the node.
* From then on nothing is answered otherwise than if the refused request had not been made.
* What is listed are the keys in increasing order, with what was set first.
* The count is that of the sites for which a value was set.
* The answers about a site are the same without the requests about another one. -/
structure WriteOnce (root : Node) (past : List (Request α)) : Prop where
  get : ∀ site ∈ root.sites, ∀ key,
    answer past (.get site key) = .found (firstSet past site key)
  contains : ∀ site ∈ root.sites, ∀ key,
    answer past (.contains site key) = .holds (firstSet past site key).isSome
  set : ∀ site ∈ root.sites, ∀ key value,
    answer past (.set site key value) =
      if (firstSet past site key).isSome then
        .refused ⟨key, site.node.nodeClass, site.node.pos⟩
      else .done
  refused : ∀ site ∈ root.sites, ∀ key value e,
    answer past (.set site key value) = .refused e → ∀ later r, About root (r :: later) →
      answer (past ++ .set site key value :: later) r = answer (past ++ later) r
  annotations : ∀ site ∈ root.sites, ∃ listing,
    answer past (.annotations site) = .values listing ∧ Lists past site listing
  count : ∃ marked : List Site, marked.Nodup ∧ (∀ site, site ∈ marked ↔ SetAt past site) ∧
    answer past .size = .count marked.length ∧ answer past .isEmpty = .holds marked.isEmpty
  apart : ∀ site ∈ root.sites, ∀ other, other ≠ site → ∀ r, r.site? = some site →
    answer past r = answer (past.filter fun q => q.site? ≠ some other) r

/-- A table is written once, and a node is told apart from its first child. -/
theorem writeOnce (about : About root past) :
    WriteOnce root past ∧
      ∀ site ∈ root.sites, ∀ child, site.node.children.head? = some child →
        ∃ first ∈ root.sites, first.node = child.2 ∧ first ≠ site := by
  constructor
  · exact {
      get := fun site mem key => answer_get about mem key
      contains := fun site mem key => answer_contains about mem key
      set := fun site mem key value => answer_set about mem key value
      refused := by
        intro site mem key value e refused later r next
        rw [answer_set about mem] at refused
        split at refused
        · next first => exact answer_again about mem first value next
        · contradiction
      annotations := fun site mem => answer_annotations about mem
      count := count_eq about
      apart := by
        intro site mem other apart r asked
        have kept : About root (past.filter fun q => q.site? ≠ some other) := fun q among =>
          about q (List.mem_filter.mp among).1
        exact answer_congr about kept mem (fun key => (firstSet_filter apart past key).symm) asked }
  · intro site mem child first
    refine ⟨⟨site.place + 1, child.2⟩, Node.first_child_mem_sites mem first, rfl, fun same => ?_⟩
    exact Nat.succ_ne_self site.place (congrArg Site.place same)

/-- Two statements that are written alike, with a value each under the same key. -/
theorem writeOnce_of_equal_statements :
    let line : Stmt := .print (.literal .int "1" ⟨1, 7⟩) ⟨1, 1⟩
    let root := Node.program ⟨[line, line], ⟨1, 1⟩⟩
    let first : Site := ⟨1, .stmt line⟩
    let second : Site := ⟨3, .stmt line⟩
    let past : List (Request Nat) := [.set first "b" 7, .set second "b" 9, .set first "a" 8]
    About root past ∧ WriteOnce root past ∧
      answer past (.get first "b") = .found (some 7) ∧
      answer past (.get second "b") = .found (some 9) ∧
      answer past (.set first "b" 5) = .refused ⟨"b", .printStatement, ⟨1, 1⟩⟩ ∧
      answer (past ++ [.set first "b" 5]) (.get first "b") = .found (some 7) := by
  intro line root first second past
  have memFirst : first ∈ root.sites := Node.mem_sites_iff.mpr (by simp [root, line, first])
  have memSecond : second ∈ root.sites := Node.mem_sites_iff.mpr (by simp [root, line, second])
  have about : About root past := by
    intro r mem site asked
    simp only [past, List.mem_cons, List.not_mem_nil, or_false] at mem
    rcases mem with rfl | rfl | rfl <;> cases asked <;> assumption
  obtain ⟨once, -⟩ := writeOnce about
  have found := once.get first memFirst "b"
  have refused := once.set first memFirst "b" 5
  refine ⟨about, once, found, once.get second memSecond "b", refused, ?_⟩
  have again : About root [(.get first "b" : Request Nat)] := by
    intro r mem site asked
    cases List.mem_singleton.mp mem
    cases asked
    exact memFirst
  exact (once.refused first memFirst "b" 5 _ refused [] _ again).trans found

end Answers

end Annotations

end ImpSyntax
