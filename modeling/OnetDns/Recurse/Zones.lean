import OnetDns.Recurse.Bailiwick

/-!
# Trees of zones

Zones that are served honestly: a server answers from the closest zone it serves, a zone
answers for the names above its cuts and delegates the others, with glue. A DS record
belongs to the side above the cut. Names are compared by their paths.
-/
namespace OnetDns.Recurse
open Dns Dnssec List Option Name

/-- Zones by the paths of their apexes, the servers of each, and what a server that answers
from a zone says to a question. -/
structure ZoneTree where
  apexes : List Path
  servers : Path → List SocketAddr
  reply : Path → Name → RecordType → Message

/-- The same answer, whatever question stands in it. -/
structure SameAnswer (a b : Message) : Prop where
  rcode : a.header.rcode = b.header.rcode
  authoritative : a.header.authoritative = b.header.authoritative
  answers : a.answers = b.answers
  authorities : a.authorities = b.authorities

namespace ZoneTree

/-- The longest path that is hosted, of those above a path with at most `k` labels. -/
def closest (hosts : Path → Bool) (p : Path) : (k : ℕ) → Option Path
  | 0 => if hosts [] then some [] else none
  | k + 1 => if hosts (p.take (k + 1)) then some (p.take (k + 1)) else closest hosts p k

/-- The zone that a question is answered from. -/
def authority (hosts : Path → Bool) (p : Path) (qtype : RecordType) : Option Path :=
  if qtype = .DS then (closest hosts p (p.length - 1)).or (closest hosts p p.length)
  else closest hosts p p.length

variable (tree : ZoneTree)

def hosts (z : Path) : Bool := decide (z ∈ tree.apexes)

/-- The zone that is authoritative for a question. -/
def zoneFor (p : Path) (qtype : RecordType) : Path := (authority tree.hosts p qtype).getD []

def hostedBy (s : SocketAddr) (z : Path) : Bool := tree.hosts z && decide (s ∈ tree.servers z)

/-- What a server says to a question. -/
def serve (s : SocketAddr) (q : Name) (qtype : RecordType) : Message :=
  tree.reply ((authority (tree.hostedBy s) q.path qtype).getD []) q qtype

/-- The first cut on the way from a zone to a name. -/
structure IsCut (z c p : Path) (qtype : RecordType) : Prop where
  apex : c ∈ tree.apexes
  below : z <+: c
  ne : z ≠ c
  above : c <+: p
  side : qtype = .DS → c ≠ p
  first : ∀ c' ∈ tree.apexes, z <+: c' → z ≠ c' → c' <+: c → c' = c

/-- The cuts on the way from a zone down to another, by the number of their labels. -/
def cuts (z below : Path) : Finset ℕ :=
  (Finset.Ioc z.length below.length).filter fun k => below.take k ∈ tree.apexes

/-- A delegation: no answer, the name servers of the cut, and the addresses of its servers.
One of them at least has its name in the zone and can be asked. -/
structure IsReferral (r : Recursor) (z c : Path) (msg : Message) : Prop where
  rcode : msg.header.rcode = rcodeNoError
  authoritative : msg.header.authoritative = false
  answers : msg.answers = []
  delegates : ∃ a ∈ msg.authorities, (nsTarget a).isSome
  owners : ∀ a ∈ msg.authorities, (nsTarget a).isSome → a.name.path = c
  glue : ∀ a ∈ msg.additionals, ∀ ns ∈ msg.authorities.filterMap nsTarget, a.name.path = ns.path →
    ∀ ip, gives a = some ip → ⟨ip, r.port⟩ ∈ tree.servers c
  usable : ∃ a ∈ msg.additionals, ∃ ns ∈ msg.authorities.filterMap nsTarget,
    a.name.path = ns.path ∧ z <+: a.name.path ∧ ∃ ip, gives a = some ip ∧ r.serverEligible ip

end ZoneTree

/-- The start of authority of a zone. -/
def HasSoa (z : Path) (msg : Message) : Prop :=
  ∃ a ∈ msg.authorities, a.rtype = .SOA ∧ a.class' = .IN ∧ a.name.path = z

/-- What a zone says of its own names: an answer or an alias, that a name gets too long, that
there is no such name, or that there is no such record. -/
structure IsAuthoritative (z : Path) (q : Name) (qtype : RecordType) (msg : Message) : Prop where
  authoritative : msg.header.authoritative = true
  dnames : ∀ a ∈ msg.answers, isDname a = true → z <+: a.name.path
  kind : isRelevantPositive msg q qtype = true ∨ isDnameYxdomain msg q = true ∨
    (msg.header.rcode = rcodeNXDomain ∨ msg.header.rcode = rcodeNoError) ∧ HasSoa z msg

namespace ZoneTree

/-- A tree that is served honestly, with the root servers of a recursor. -/
structure Honest (tree : ZoneTree) (r : Recursor) : Prop where
  root : [] ∈ tree.apexes
  roots : r.roots ⊆ tree.servers [] ∧ ∃ s ∈ r.roots, r.serverEligible s.ip
  referral : ∀ z c q qtype, z ∈ tree.apexes → z <+: q.path → tree.IsCut z c q.path qtype →
    tree.IsReferral r z c (tree.reply z q qtype)
  authoritative : ∀ z q qtype, z ∈ tree.apexes → z <+: q.path →
    (∀ c, ¬tree.IsCut z c q.path qtype) → IsAuthoritative z q qtype (tree.reply z q qtype)
  /-- A name that gets too long stays so with more labels. -/
  tooLong : ∀ z m q qtype qtype', z ∈ tree.apexes → z <+: m.path → m.path <+: q.path →
    isDnameYxdomain (tree.reply z m qtype) q = true →
    SameAnswer (tree.reply z m qtype) (tree.reply z q qtype')

/-- Servers of a zone, all of which can be asked. -/
def Serves (tree : ZoneTree) (r : Recursor) (z : Path) (servers : List SocketAddr) : Prop :=
  servers ≠ [] ∧ ∀ s ∈ servers, s ∈ tree.servers z ∧ r.serverEligible s.ip = true

/-- Every server that can be asked answers, to the name in any case. -/
def Answers (tree : ZoneTree) (r : Recursor) (env : Env) : Prop :=
  ∀ n servers q qtype, (∃ s ∈ servers, r.serverEligible s.ip) →
    ∃ s ∈ servers, ∃ q' : Name, q'.path = q.path ∧
      env.queryAny n servers q qtype = .ok (tree.serve s q' qtype)

variable {hosts : Path → Bool}

lemma closest_some {p z : Path} {k : ℕ} (h : closest hosts p k = some z) :
    hosts z = true ∧ z <+: p ∧ z.length ≤ k ∧
      ∀ c, hosts c = true → c <+: p → c.length ≤ k → c <+: z := by
  induction k with
  | zero =>
    rw [closest] at h
    split at h
    · rename_i hroot
      obtain rfl := some.inj h
      refine ⟨hroot, nil_prefix, le_rfl, fun c _ _ hlen => ?_⟩
      rw [eq_nil_of_length_eq_zero (Nat.le_zero.mp hlen)]
    · cases h
  | succ k ih =>
    rw [closest] at h
    split at h
    · rename_i hhost
      obtain rfl := some.inj h
      refine ⟨hhost, take_prefix _ _, length_take_le _ _, fun c _ hc hlen => ?_⟩
      rw [prefix_iff_eq_take.mp hc]
      exact take_prefix_take_left hlen
    rename_i hnot
    obtain ⟨hhost, hpre, hshort, hmax⟩ := ih h
    refine ⟨hhost, hpre, hshort.trans (Nat.le_succ k), fun c hc hcp hlen => ?_⟩
    rcases lt_or_eq_of_le hlen with hlt | heq
    · exact hmax c hc hcp (by omega)
    · rw [prefix_iff_eq_take.mp hcp, heq] at hc
      exact absurd hc hnot

lemma closest_isSome {p c : Path} {k : ℕ} (hc : hosts c = true)
    (hpre : c <+: p) (hlen : c.length ≤ k) : ∃ z, closest hosts p k = some z := by
  induction k with
  | zero =>
    rw [eq_nil_of_length_eq_zero (Nat.le_zero.mp hlen)] at hc
    exact ⟨[], by rw [closest, if_pos hc]⟩
  | succ k ih =>
    rw [closest]
    split
    · exact ⟨_, rfl⟩
    rename_i hnot
    refine ih ?_
    rcases lt_or_eq_of_le hlen with hlt | heq
    · omega
    · rw [prefix_iff_eq_take.mp hpre, heq] at hc
      exact absurd hc hnot

/-- A hosted path above another, strictly for DS, has an authority below it. -/
theorem authority_of_host {p c : Path} (qtype : RecordType) (hc : hosts c = true) (hpre : c <+: p) :
    ∃ z, authority hosts p qtype = some z ∧ hosts z = true ∧ z <+: p ∧
      ((qtype = .DS → c ≠ p) → c <+: z) ∧ (qtype = .DS → c ≠ p → z ≠ p) := by
  have hshort : c ≠ p → c.length ≤ p.length - 1 ∧ 0 < p.length := by
    intro hne
    have hlen := hpre.length_le
    have hlt : c.length ≠ p.length := fun heq => hne (hpre.eq_of_length heq)
    omega
  rw [authority]
  split
  · rename_i hds
    cases hstrict : closest hosts p (p.length - 1) with
    | some z =>
      obtain ⟨hz, hzp, hzlen, hmax⟩ := closest_some hstrict
      refine ⟨z, rfl, hz, hzp, fun hne => hmax c hc hpre (hshort (hne hds)).1, fun _ hne heq => ?_⟩
      have hpos := (hshort hne).2
      rw [heq] at hzlen
      omega
    | none =>
      obtain ⟨z, hz⟩ := closest_isSome hc hpre hpre.length_le
      obtain ⟨hhost, hzp, -, hmax⟩ := closest_some hz
      refine ⟨z, by rw [none_or, hz], hhost, hzp, fun _ => hmax c hc hpre hpre.length_le,
        fun _ hne => ?_⟩
      obtain ⟨z', hz'⟩ := closest_isSome hc hpre (hshort hne).1
      rw [hstrict] at hz'
      cases hz'
  · rename_i hds
    obtain ⟨z, hz⟩ := closest_isSome hc hpre hpre.length_le
    obtain ⟨hhost, hzp, -, hmax⟩ := closest_some hz
    exact ⟨z, hz, hhost, hzp, fun _ => hmax c hc hpre hpre.length_le, fun h => absurd h hds⟩

variable {tree : ZoneTree} {p z c : Path} {qtype : RecordType}

/-- The zone for a question is the lowest above it, and not below a cut for DS. -/
theorem zoneFor_spec (hroot : [] ∈ tree.apexes) (p : Path) (qtype : RecordType) :
    tree.zoneFor p qtype ∈ tree.apexes ∧ tree.zoneFor p qtype <+: p ∧
      (qtype = .DS → p ≠ [] → tree.zoneFor p qtype ≠ p) ∧
      ∀ c ∈ tree.apexes, c <+: p → (qtype = .DS → c ≠ p) → c <+: tree.zoneFor p qtype := by
  have hhost : tree.hosts [] = true := decide_eq_true hroot
  obtain ⟨z, hz, hapex, hpre, -, hside⟩ := authority_of_host qtype hhost ( nil_prefix (l := p))
  have hzone : tree.zoneFor p qtype = z := by rw [zoneFor, hz, getD_some]
  rw [hzone]
  refine ⟨of_decide_eq_true hapex, hpre, fun hds hne => hside hds (Ne.symm hne),
    fun c hc hcp hcside => ?_⟩
  have hhost' : tree.hosts c = true := decide_eq_true hc
  obtain ⟨z', hz', -, -, hbelow, -⟩ := authority_of_host qtype hhost' hcp
  rw [hz'] at hz
  obtain rfl := some.inj hz
  exact hbelow hcside

/-- If there is a zone on the way, there is a first one. -/
theorem exists_cut (hc : c ∈ tree.apexes) (hbelow : z <+: c) (hne : z ≠ c) (habove : c <+: p)
    (hside : qtype = .DS → c ≠ p) : ∃ c, tree.IsCut z c p qtype := by
  induction hlen : c.length using Nat.strong_induction_on generalizing c with
  | _ n ih =>
    by_cases hfirst : ∃ c' ∈ tree.apexes, z <+: c' ∧ z ≠ c' ∧ c' <+: c ∧ c' ≠ c
    · obtain ⟨c', hc', hbelow', hne', hpre, hdiff⟩ := hfirst
      have hlt : c'.length < c.length :=
        lt_of_le_of_ne hpre.length_le fun heq => hdiff (hpre.eq_of_length heq)
      refine ih c'.length (hlen ▸ hlt) hc' hbelow' hne' (hpre.trans habove) (fun _ heq => ?_) rfl
      rw [heq] at hlt
      exact absurd (habove.length_le) (not_le.mpr hlt)
    · refine ⟨c, hc, hbelow, hne, habove, hside, fun c' hc' hbelow' hne' hpre => ?_⟩
      by_contra hdiff
      exact hfirst ⟨c', hc', hbelow', hne', hpre, hdiff⟩

lemma not_isCut_zoneFor (hroot : [] ∈ tree.apexes) :
    ¬tree.IsCut (tree.zoneFor p qtype) c p qtype := by
  intro hcut
  have hmax := (zoneFor_spec hroot p qtype).2.2.2 c hcut.apex hcut.above hcut.side
  exact hcut.ne (hcut.below.eq_of_length (le_antisymm hcut.below.length_le hmax.length_le))

lemma cut_of_ne (hroot : [] ∈ tree.apexes) (hz : z <+: tree.zoneFor p qtype)
    (hne : z ≠ tree.zoneFor p qtype) : ∃ c, tree.IsCut z c p qtype := by
  obtain ⟨hapex, hpre, hside, -⟩ := zoneFor_spec hroot p qtype
  refine exists_cut hapex hz hne hpre fun hds heq => ?_
  refine hside hds ?_ heq
  rintro rfl
  have hnil := prefix_nil.mp hpre
  rw [hnil] at hz hne
  exact hne (prefix_nil.mp hz)

lemma IsCut.above_zoneFor (hroot : [] ∈ tree.apexes) (h : tree.IsCut z c p qtype) :
    c <+: tree.zoneFor p qtype :=
  (zoneFor_spec hroot p qtype).2.2.2 c h.apex h.above h.side

/-- A server of a zone answers from a zone it serves, for a DS record below the zone from one
above the name. -/
theorem serve_spec {s : SocketAddr} {q : Name} (qtype : RecordType) (hz : z ∈ tree.apexes)
    (hs : s ∈ tree.servers z) (hpre : z <+: q.path) :
    ∃ z', tree.serve s q qtype = tree.reply z' q qtype ∧ z' ∈ tree.apexes ∧ s ∈ tree.servers z' ∧
      z' <+: q.path ∧ (qtype = .DS → z ≠ q.path → z' ≠ q.path) := by
  have hhost : tree.hostedBy s z = true := by
    rw [hostedBy, hosts, decide_eq_true hz, decide_eq_true hs, Bool.and_self]
  obtain ⟨z', hz', hhost', hpre', -, hside⟩ := authority_of_host qtype hhost hpre
  rw [hostedBy, hosts, Bool.and_eq_true, decide_eq_true_eq, decide_eq_true_eq] at hhost'
  exact ⟨z', by rw [serve, hz', getD_some], hhost'.1, hhost'.2, hpre', hside⟩

end ZoneTree

lemma sortDedup_ne_nil {α : Type} [DecidableEq α] {orderKey : α → List ℕ} {items : List α}
    (h : items ≠ []) : sortDedup orderKey items ≠ [] := by
  intro hnil
  rw [sortDedup, destutter_eq_nil] at hnil
  have hlen := congrArg length hnil
  rw [length_insertionSort] at hlen
  exact h (eq_nil_of_length_eq_zero hlen)

lemma bestReferral_of_owners {qname : Name} {c : Path} (hc : c <+: qname.path)
    {records : List Record} (howners : ∀ a ∈ records, (nsTarget a).isSome → a.name.path = c)
    {best : Option Name} (hbest : ∀ b, best = some b → b.path = c)
    (hsome : best.isSome ∨ ∃ a ∈ records, (nsTarget a).isSome) :
    ∃ zone, bestReferral qname records best = some zone ∧ zone.path = c := by
  induction records generalizing best with
  | nil =>
    rcases hsome with hsome | ⟨a, ha, -⟩
    · obtain ⟨b, rfl⟩ := isSome_iff_exists.mp hsome
      exact ⟨b, rfl, hbest b rfl⟩
    · cases ha
  | cons a rest ih =>
    have hrest : ∀ a ∈ rest, (nsTarget a).isSome → a.name.path = c :=
      fun a ha => howners a (mem_cons_of_mem _ ha)
    rw [bestReferral]
    split
    · rename_i htaken
      have htarget : (nsTarget a).isSome := by
        rw [Bool.and_eq_true, Bool.and_eq_true] at htaken
        exact htaken.1.1
      refine ih hrest (fun b hb => ?_) (.inl rfl)
      rw [← some.inj hb]
      exact howners a mem_cons_self htarget
    rename_i hnot
    refine ih hrest hbest ?_
    rcases hsome with hsome | ⟨a', ha', htarget⟩
    · exact .inl hsome
    rcases mem_cons.mp ha' with rfl | ha'
    · -- the first owner is taken unless there is one already
      cases best with
      | some b => exact .inl rfl
      | none =>
        refine absurd ?_ hnot
        have hwithin : isWithin qname a'.name = true := by
          rw [isWithin_path, howners a' mem_cons_self htarget]
          exact hc
        rw [htarget, hwithin]
        rfl
    · exact .inr ⟨a', ha', htarget⟩

namespace ZoneTree.IsReferral

variable {tree : ZoneTree} {r : Recursor} {z c : Path} {msg : Message} {qname zone : Name}

lemma extract (h : tree.IsReferral r z c msg) (hc : c <+: qname.path) :
    ∃ nz, extractReferral msg qname = (some nz, msg.authorities.filterMap nsTarget) ∧
      nz.path = c := by
  obtain ⟨nz, hbest, hpath⟩ : ∃ nz, bestReferral qname msg.authorities none = some nz ∧
      nz.path = c :=
    bestReferral_of_owners hc h.owners (fun b hb => by cases hb) (.inr h.delegates)
  refine ⟨nz, ?_, hpath⟩
  have hreads : ¬(msg.header.rcode ≠ rcodeNoError ∨ msg.header.authoritative = true ∨
      msg.answers ≠ []) := by
    rw [h.rcode, h.authoritative, h.answers]
    simp
  rw [extractReferral, if_neg hreads, hbest]
  refine congrArg _ (filterMap_congr fun a ha => ?_)
  split
  · rfl
  rename_i hother
  cases htarget : nsTarget a with
  | none => rfl
  | some target =>
    refine absurd ?_ hother
    rw [eqIgnoreCase_path, hpath]
    exact h.owners a ha (by rw [htarget]; rfl)

/-- The glue of a delegation gives servers of the cut. -/
theorem serves (h : tree.IsReferral r z c msg) (hzone : zone.path <+: z) :
    tree.Serves r c (r.glueAddrs msg (msg.authorities.filterMap nsTarget) zone).1 := by
  constructor
  · obtain ⟨a, ha, ns, hns, hpath, hwithin, ip, hip, helig⟩ := h.usable
    have hglue : r.glueOf (msg.authorities.filterMap nsTarget) zone a = some ⟨ip, r.port⟩ :=
      glueOf_eq_some.mpr ⟨⟨ns, hns, hpath⟩, hzone.trans hwithin, hip, helig, rfl⟩
    refine sortDedup_ne_nil (ne_nil_of_mem (a := ⟨ip, r.port⟩) ?_)
    refine mem_filterMap.mpr ⟨a, mem_filter.mpr ⟨ha, ?_⟩, hglue⟩
    rw [hglue]
    rfl
  · intro s hs
    obtain ⟨a, ha, hglue⟩ := mem_filterMap.mp (mem_of_sortDedup hs)
    obtain ⟨⟨ns, hns, hpath⟩, -, hgives, helig, hport⟩ := glueOf_eq_some.mp hglue
    refine ⟨?_, helig⟩
    have hserver := h.glue a (mem_of_mem_filter ha) ns hns hpath s.ip hgives
    rwa [← hport] at hserver

end ZoneTree.IsReferral

lemma IsAuthoritative.extract {z : Path} {q qname : Name} {qtype : RecordType} {msg : Message}
    (h : IsAuthoritative z q qtype msg) : extractReferral msg qname = (none, []) := by
  rw [extractReferral, if_pos (.inr (.inl h.authoritative))]

section Case

variable {a b : Name} {msg : Message}

lemma eqIgnoreCase_congr (h : a.path = b.path) (n : Name) :
    n.eqIgnoreCase a = n.eqIgnoreCase b := by
  rw [Bool.eq_iff_iff, eqIgnoreCase_path, eqIgnoreCase_path, h]

lemma numLabels_congr (h : a.path = b.path) : a.numLabels = b.numLabels := by
  rw [← path_length, ← path_length, h]

lemma isAbove_iff {owner qname : Name} :
    isAbove owner qname = true ↔ owner.path <+: qname.path ∧ owner.path ≠ qname.path := by
  refine ⟨isAbove_path, fun ⟨hpre, hne⟩ => ?_⟩
  have hlt : owner.numLabels < qname.numLabels := by
    rw [← path_length, ← path_length]
    exact lt_of_le_of_ne hpre.length_le fun heq => hne (hpre.eq_of_length heq)
  rw [isAbove, decide_eq_true hlt, Bool.true_and, eqIgnoreCase_path, suffix_path, ← path_length]
  exact (prefix_iff_eq_take.mp hpre).symm

lemma isAbove_congr (h : a.path = b.path) (owner : Name) : isAbove owner a = isAbove owner b := by
  rw [Bool.eq_iff_iff, isAbove_iff, isAbove_iff, h]

lemma isDnameYxdomain_congr (h : a.path = b.path) :
    isDnameYxdomain msg a = isDnameYxdomain msg b := by
  unfold isDnameYxdomain
  simp only [isAbove_congr h]

lemma cnameLoop_congr (h : a.path = b.path) (records : List Record) (target : Option Name) :
    cnameLoop a records target = cnameLoop b records target := by
  induction records generalizing target with
  | nil => rfl
  | cons record rest ih =>
    unfold cnameLoop
    simp only [eqIgnoreCase_congr h, ih]

lemma bestDname_congr (h : a.path = b.path) (records : List Record) (best : Option Record) :
    bestDname a records best = bestDname b records best := by
  induction records generalizing best with
  | nil => rfl
  | cons record rest ih =>
    unfold bestDname
    simp only [isAbove_congr h, ih]

/-- Whether labels make a name depends on their lengths only. -/
theorem fromLabels_isOk {labels labels' : List Bytes} (h : labels.map length = labels'.map length) :
    (fromLabels labels).isOk = (fromLabels labels').isOk := by
  have hlabel : (∀ label ∈ labels, 1 ≤ label.length ∧ label.length ≤ 63) ↔
      ∀ label ∈ labels', 1 ≤ label.length ∧ label.length ≤ 63 := by
    have hall : ∀ l : List Bytes, (∀ label ∈ l, 1 ≤ label.length ∧ label.length ≤ 63) ↔
        ∀ n ∈ l.map length, 1 ≤ n ∧ n ≤ 63 := fun l => by simp
    rw [hall, hall, h]
  have hwire : wireLen labels = wireLen labels' := by
    have hsum : ∀ l : List Bytes, wireLen l = ((l.map length).map (· + 1)).sum + 1 := by
      intro l
      rw [List.map_map]
      rfl
    rw [hsum, hsum, h]
  unfold fromLabels
  by_cases hok : ∀ label ∈ labels, 1 ≤ label.length ∧ label.length ≤ 63
  · rw [dif_pos hok, dif_pos (hlabel.mp hok)]
    by_cases hfit : wireLen labels ≤ maxNameLen
    · rw [dif_pos hfit, dif_pos (hwire ▸ hfit)]
      rfl
    · rw [dif_neg hfit, dif_neg (hwire ▸ hfit)]
  · rw [dif_neg hok, dif_neg (fun hok' => hok (hlabel.mpr hok'))]

lemma map_length_congr (h : a.path = b.path) : a.labels.map length = b.labels.map length := by
  have hkeys : a.labels.map labelKey = b.labels.map labelKey := reverse_injective h
  have hlen : ∀ l : List Bytes, l.map length = (l.map labelKey).map length := by
    intro l
    rw [List.map_map]
    exact map_congr_left fun label _ => by simp [labelKey]
  rw [hlen, hlen, hkeys]

/-- The record rewrites the name. -/
def rewrites (msg : Message) (q : Name) (record : Record) : Bool :=
  match record.rdata with
  | .dname suffix => !msg.answers.any (otherDname record.name suffix) &&
    (Name.fromLabels (q.labels.take (q.numLabels - record.name.numLabels) ++ suffix.labels)).isOk
  | _ => false

lemma dnameRewrite_congr (h : a.path = b.path) :
    (dnameRewrite msg a).isSome = (dnameRewrite msg b).isSome := by
  -- the target has labels of the same lengths
  have htarget : ∀ owner suffix : Name,
      (fromLabels (a.labels.take (a.numLabels - owner.numLabels) ++ suffix.labels)).isOk =
        (fromLabels (b.labels.take (b.numLabels - owner.numLabels) ++ suffix.labels)).isOk := by
    intro owner suffix
    refine fromLabels_isOk ?_
    rw [map_append, map_append, map_take, map_take, map_length_congr h, numLabels_congr h]
  have hisSome : ∀ q : Name, (dnameRewrite msg q).isSome =
      (bestDname q msg.answers none).any (rewrites msg q) := by
    intro q
    rw [dnameRewrite]
    cases bestDname q msg.answers none with
    | none => rfl
    | some record =>
      obtain ⟨name, rtype, class', ttl, rdata⟩ := record
      cases rdata with
      | dname suffix =>
        dsimp only [any_some, rewrites]
        cases msg.answers.any (otherDname name suffix) with
        | true => rfl
        | false =>
          cases fromLabels (q.labels.take (q.numLabels - name.numLabels) ++ suffix.labels) <;>
            rfl
      | _ => rfl
  have hsame : rewrites msg a = rewrites msg b := by
    funext record
    simp only [rewrites, htarget]
  rw [hisSome, hisSome, bestDname_congr h, hsame]

lemma isRelevantPositive_congr (h : a.path = b.path) (qtype : RecordType) :
    isRelevantPositive msg a qtype = isRelevantPositive msg b qtype := by
  unfold isRelevantPositive hasRelevantAlias cnameTarget cnameOwnerIsValid hasDirectQtypeAnswer
  simp only [eqIgnoreCase_congr h, dnameRewrite_congr h, cnameLoop_congr h]

end Case

end OnetDns.Recurse
