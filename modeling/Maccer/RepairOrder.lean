import Maccer.Repair

/-! Which replacement maps Repair Key resolves in every order of the table. -/

namespace Maccer

open Lua

def front : List Str → HashOrder
  | [] => .stored
  | k :: rest => {
      order := fun ks => ks.filter (· = k) ++ (front rest).order (ks.filter (¬ · = k))
      perm := fun ks => (List.Perm.append_left _ ((front rest).perm _)).trans
        (by simpa using List.filter_append_perm (fun x => decide (x = k)) ks) }

theorem front_order (k : Str) (rest ks : List Str) (distinct : ks.Nodup) :
    (front (k :: rest)).order ks =
      if k ∈ ks then k :: (front rest).order (ks.filter (¬ · = k))
      else (front rest).order (ks.filter (¬ · = k)) := by
  have first : ks.filter (· = k) = if k ∈ ks then [k] else [] := by
    rw [List.filter_eq]
    split
    case isTrue member => rw [List.count_eq_one_of_mem distinct member]; rfl
    case isFalse absent => rw [List.count_eq_zero_of_not_mem absent]; rfl
  simp only [front, first]
  split <;> rfl

def Words (repltbl : Table Str) : Prop :=
  ∀ a b, field repltbl a = some b → (DigitFree a ∧ ∃ p, plain a = .ok p) ∧
    DigitFree b ∧ ∃ q, plain b = .ok q

def Resolved (repltbl : Table Str) (s s' : Session) : Prop :=
  (∀ a ∈ repltbl, ¬ Stored s'.key.keytbl a) ∧
    ∀ a ∈ repltbl, Stored s.key.keytbl a → ∃ z, field repltbl z = none ∧
      Relation.ReflTransGen (fun a b => field repltbl a = some b) a z ∧ Stored s'.key.keytbl z

/-- Every order resolves the replacements, and all with the same forms and frequencies. -/
def AlwaysResolved (t : Tables) (fuel : Nat) (repltbl : Table Str) (s : Session) : Prop :=
  (∀ hash, ∃ s', replaceAll { t with hash } fuel repltbl s = .ok s' ∧ Resolved repltbl s s') ∧
    ∀ hash hash' s₁ s₂, replaceAll { t with hash } fuel repltbl s = .ok s₁ →
      replaceAll { t with hash := hash' } fuel repltbl s = .ok s₂ →
      ∀ w, (Stored s₁.key.keytbl w ↔ Stored s₂.key.keytbl w) ∧ s₁.key.freq w = s₂.key.freq w

/-- The texts of the headers are there and can be rewritten, one replacement after the
other. -/
def Rewritable (t : Tables) (fuel : Nat) (repltbl : Table Str) (s : Session) : Prop :=
  ∃ Texts : Table Str → Prop, Texts s.textstbl ∧ ∀ hash a b k h, a ∈ repltbl →
    field repltbl k = some b → Carries s.key a h → ∀ textstbl, Texts textstbl →
      ∃ textstbl', replaceInSource { t with hash } fuel a b textstbl h = .ok textstbl' ∧
        Texts textstbl'

section

variable {t : Tables} {fuel : Nat} {repltbl : Table Str} {s : Session}

/-! What is enough. -/

theorem replaceAll_run (wf : WellFormed s.key.keytbl) (counted : Counted s.key) (words : Words repltbl)
    (rewritable : Rewritable t fuel repltbl s) (resolvable : Resolvable repltbl s.key.keytbl)
    (hash : HashOrder) :
    ∃ s', replaceAll { t with hash } fuel repltbl s = .ok s' ∧
      (∀ w, Stored s'.key.keytbl w ↔ (Stored s.key.keytbl w ∧ w ∉ repltbl) ∨
        ∃ a, Stored s.key.keytbl a ∧ lastWord repltbl a = some w) ∧
      ∀ w, s'.key.freq w = if Stored s.key.keytbl w ∧ w ∈ repltbl then 0
        else s.key.freq w + moved s.key
          (pairs hash (mergeChains repltbl (hash.order repltbl.keys))) w := by
  obtain ⟨Texts, texts, rewrites⟩ := rewritable
  generalize merge : mergeChains repltbl (hash.order repltbl.keys) = merged
  have all : ∀ k ∈ repltbl, k ∈ hash.order repltbl.keys := fun k member =>
    (hash.perm _).mem_iff.mpr (AList.mem_keys.mp member)
  have ends (a : Str) (stored : Stored s.key.keytbl a) := mergeChains_resolvable resolvable _ all a stored
  rw [merge] at ends
  have entry (e : Str × Str) : e ∈ pairs hash merged ↔ field merged e.1 = some e.2 :=
    mem_pairs hash merged e.1 e.2
  have left {k v : Str} (found : field merged k = some v) : k ∈ repltbl := by
    by_contra free
    rw [← merge, mergeChains_free _ ((field_eq_none _ _).mpr free)] at found
    cases found
  have right {k v : Str} (found : field merged k = some v) : ∃ k', field repltbl k' = some v :=
    mergeChains_value (merge ▸ found)
  have last {a y : Str} (stored : Stored s.key.keytbl a) (found : field merged a = some y) :
      lastWord repltbl a = some y ∧ field repltbl y = none := by
    obtain ⟨same, final⟩ := ends a stored
    have ending : lastWord repltbl a = some y := same.symm.trans found
    exact ⟨ending, (final y ending).1⟩
  obtain ⟨s', ran, ⟨forms, freqs⟩⟩ := @replace_run { t with hash } fuel Texts
    (pairs hash merged) s (pairs_nodup hash merged) (fun e member => by
      have found := (entry e).mp member
      obtain ⟨k, value⟩ := right found
      obtain ⟨v, own⟩ := exists_field (left found)
      exact ⟨_, _, (words _ _ own).1.2.choose_spec, (words _ _ value).2.2.choose_spec⟩) texts
    (fun e member stored => by
      have found := (entry e).mp member
      obtain ⟨freq, headers, count, sourced⟩ := counted e.1 stored
      obtain ⟨k, value⟩ := right found
      refine ⟨⟨wf.holds stored, ⟨freq, headers, count, sourced⟩, fun h carried =>
        rewrites hash e.1 e.2 k h (left found) value carried⟩, fun e' member' same => ?_⟩
      have free := (last stored found).2
      exact (field_eq_none _ _).mp free (same ▸ left ((entry e').mp member')))
  refine ⟨s', by rw [replaceAll, merge]; exact ran, fun w => ?_, fun w => ?_⟩
  · rw [forms]
    constructor
    · rintro (⟨stored, outside⟩ | ⟨e, member, stored, rfl⟩)
      · by_cases listed : w ∈ repltbl
        · obtain ⟨b, here⟩ := exists_field listed
          have ending : lastWord repltbl w = some ((field repltbl b).getD b) := by simp [lastWord, here]
          have found := (ends w stored).1.trans ending
          exact absurd rfl (outside (w, _) ((entry _).mpr found))
        · exact .inl ⟨stored, listed⟩
      · exact .inr ⟨e.1, stored, (last stored ((entry e).mp member)).1⟩
    · rintro (⟨stored, unlisted⟩ | ⟨a, stored, ending⟩)
      · exact .inl ⟨stored, fun e member same => unlisted (same ▸ left ((entry e).mp member))⟩
      · exact .inr ⟨(a, w), (entry _).mpr ((ends a stored).1.trans ending), stored, rfl⟩
  · rw [freqs]
    have same : (Stored s.key.keytbl w ∧ ∃ e ∈ pairs hash merged, e.1 = w) ↔
        Stored s.key.keytbl w ∧ w ∈ repltbl := by
      refine and_congr_right fun stored => ⟨?_, fun listed => ?_⟩
      · rintro ⟨e, member, rfl⟩
        exact left ((entry e).mp member)
      · obtain ⟨b, here⟩ := exists_field listed
        have ending : lastWord repltbl w = some ((field repltbl b).getD b) := by simp [lastWord, here]
        exact ⟨(w, _), (entry _).mpr ((ends w stored).1.trans ending), rfl⟩
    simp only [same]

theorem moved_congr (resolvable : Resolvable repltbl s.key.keytbl) (hash hash' : HashOrder) (w : Str) :
    moved s.key (pairs hash (mergeChains repltbl (hash.order repltbl.keys))) w =
      moved s.key (pairs hash' (mergeChains repltbl (hash'.order repltbl.keys))) w := by
  have entry (hash : HashOrder) (a y : Str) (stored : Stored s.key.keytbl a) :
      (a, y) ∈ pairs hash (mergeChains repltbl (hash.order repltbl.keys)) ↔
        lastWord repltbl a = some y := by
    rw [mem_pairs, (mergeChains_resolvable resolvable _ (fun k member =>
      (hash.perm _).mem_iff.mpr (AList.mem_keys.mp member)) a stored).1]
  have once (hash : HashOrder) (t : Table Str) : (pairs hash t).Nodup :=
    List.Nodup.of_map _ (pairs_nodup hash t)
  have same : ((pairs hash (mergeChains repltbl (hash.order repltbl.keys))).filter fun e =>
      decide (Stored s.key.keytbl e.1) && decide (e.2 = w)).Perm
      ((pairs hash' (mergeChains repltbl (hash'.order repltbl.keys))).filter fun e =>
        decide (Stored s.key.keytbl e.1) && decide (e.2 = w)) := by
    refine (List.perm_ext_iff_of_nodup ((once _ _).filter _) ((once _ _).filter _)).mpr ?_
    rintro ⟨a, y⟩
    simp only [List.mem_filter, Bool.and_eq_true, decide_eq_true_eq]
    constructor
    · rintro ⟨member, stored, rfl⟩
      exact ⟨(entry hash' a y stored).mpr ((entry hash a y stored).mp member), stored, rfl⟩
    · rintro ⟨member, stored, rfl⟩
      exact ⟨(entry hash a y stored).mpr ((entry hash' a y stored).mp member), stored, rfl⟩
  exact (same.map _).sum_eq

theorem alwaysResolved_of_resolvable (wf : WellFormed s.key.keytbl) (counted : Counted s.key)
    (words : Words repltbl) (rewritable : Rewritable t fuel repltbl s)
    (resolvable : Resolvable repltbl s.key.keytbl) : AlwaysResolved t fuel repltbl s := by
  have run := replaceAll_run wf counted words rewritable resolvable
  have final (a z : Str) (stored : Stored s.key.keytbl a) (ending : lastWord repltbl a = some z) :=
    (mergeChains_resolvable resolvable repltbl.keys (fun k member => AList.mem_keys.mp member) a
      stored).2 z ending
  constructor
  · intro hash
    obtain ⟨s', ran, forms, _⟩ := run hash
    refine ⟨s', ran, fun a listed stored => ?_, fun a listed stored => ?_⟩
    · rcases (forms a).mp stored with ⟨_, unlisted⟩ | ⟨a', stored', ending⟩
      · exact unlisted listed
      · exact (field_eq_none _ _).mp (final a' a stored' ending).1 listed
    · obtain ⟨b, here⟩ := exists_field listed
      have ending : lastWord repltbl a = some ((field repltbl b).getD b) := by simp [lastWord, here]
      obtain ⟨free, path⟩ := final a _ stored ending
      exact ⟨_, free, path, (forms _).mpr (.inr ⟨a, stored, ending⟩)⟩
  · intro hash hash' s₁ s₂ ran ran' w
    obtain ⟨s₁', ran₁, forms₁, freqs₁⟩ := run hash
    obtain ⟨s₂', ran₂, forms₂, freqs₂⟩ := run hash'
    obtain rfl := Except.ok.inj (ran₁.symm.trans ran)
    obtain rfl := Except.ok.inj (ran₂.symm.trans ran')
    rw [forms₁, forms₂, freqs₁, freqs₂, moved_congr resolvable hash hash']
    exact ⟨.rfl, rfl⟩

/-! What is needed. -/

theorem replaceword_keeps {s' : Session} {orig repl : Str} (word : DigitFree orig)
    (ran : replaceword t fuel s orig repl = .ok s') (w : Str) (apart : w ≠ orig) :
    (Stored s.key.keytbl w → Stored s'.key.keytbl w) ∧
      (w ≠ repl → ∀ r j, Held s.key.keytbl w r j → ∃ j', Held s'.key.keytbl w r j') := by
  obtain ⟨p, q, origPlain, _, changed⟩ := replaceword_keytbl t fuel s s' orig repl ran
  have plainWord := plain_digitFree origPlain word
  rw [changed]
  split
  case isTrue member =>
      exact ⟨fun stored => replaced_stored plainWord member apart (.inl stored),
        fun apart' r j held => replaced_held plainWord member held apart apart'⟩
  case isFalse => exact ⟨id, fun _ r j held => ⟨j, held⟩⟩

theorem replaceword_brings {s' : Session} {orig repl : Str} (apart : orig ≠ repl)
    (ran : replaceword t fuel s orig repl = .ok s') {r : Str} {j : Nat}
    (held : Held s.key.keytbl orig r j) : Stored s'.key.keytbl repl := by
  obtain ⟨p, q, origPlain, _, changed⟩ := replaceword_keytbl t fuel s s' orig repl ran
  obtain rfl := Except.ok.inj (origPlain.symm.trans held.same)
  rw [changed, if_pos held.member]
  exact replaced_stored held.word held.member (Ne.symm apart) (.inr rfl)

theorem replace_keeps (entries : List (Str × Str)) {s s' : Session}
    (words : ∀ e ∈ entries, DigitFree e.1)
    (ran : entries.foldlM (fun s e => replaceword t fuel s e.1 e.2) s = .ok s') (w : Str)
    (apart : ∀ e ∈ entries, e.1 ≠ w) :
    (Stored s.key.keytbl w → Stored s'.key.keytbl w) ∧
      ((∀ e ∈ entries, e.2 ≠ w) → ∀ r j, Held s.key.keytbl w r j →
        ∃ j', Held s'.key.keytbl w r j') := by
  induction entries generalizing s with
  | nil =>
      cases ran
      exact ⟨id, fun _ r j held => ⟨j, held⟩⟩
  | cons e entries ih =>
      rw [List.foldlM_cons, bind_eq_ok] at ran
      obtain ⟨middle, one, rest⟩ := ran
      obtain ⟨stays, keeps⟩ := replaceword_keeps (words e (by simp)) one w
        (Ne.symm (apart e (by simp)))
      obtain ⟨stays', keeps'⟩ := ih (fun e' member => words e' (by simp [member])) rest
        fun e' member => apart e' (by simp [member])
      refine ⟨fun stored => stays' (stays stored), fun others r j held => ?_⟩
      obtain ⟨j', held'⟩ := keeps (Ne.symm (others e (by simp))) r j held
      exact keeps' (fun e' member => others e' (by simp [member])) r j' held'

theorem mergeChains_entry {order : List Str} {a z : Str} (here : field repltbl a = some z)
    (first : ∀ k, field repltbl k ≠ some a) (absent : a ∉ order) :
    field (mergeChains repltbl order) a = some z := by
  induction order generalizing repltbl with
  | nil => exact here
  | cons o order ih =>
      simp only [List.mem_cons, not_or] at absent
      refine @ih (mergeEntry repltbl o) ?_ (fun k found => ?_) absent.2
      · rcases mergeEntry_cases repltbl o with ⟨same, _⟩ | ⟨r, last, visited, _, fields⟩
        · rw [same, here]
        · have kept : a ≠ r := fun same => first o (same ▸ visited)
          rw [fields, if_neg kept, if_neg absent.1, here]
      · obtain ⟨k', found'⟩ := mergeEntry_value found
        exact first k' found'

theorem front_head (k : Str) (rest : List Str) (listed : k ∈ repltbl) :
    ∃ order, (front (k :: rest)).order repltbl.keys = k :: order ∧ k ∉ order := by
  have distinct := ((front (k :: rest)).perm repltbl.keys).nodup_iff.mpr repltbl.keys_nodup
  rw [front_order k rest _ repltbl.keys_nodup, if_pos (AList.mem_keys.mp listed)] at distinct ⊢
  exact ⟨_, rfl, (List.nodup_cons.mp distinct).1⟩

theorem merged_word (words : Words repltbl) {order : List Str} {k v : Str}
    (found : field (mergeChains repltbl order) k = some v) : DigitFree k := by
  by_cases entry : k ∈ repltbl
  · obtain ⟨v, own⟩ := exists_field entry
    exact (words _ _ own).1.1
  · rw [mergeChains_free _ ((field_eq_none _ _).mpr entry)] at found
    cases found

/-- A stored left side that gives way to a left side leaves that in the key, if the
latter's own turn has come before or does not come. -/
theorem leaves_left (wf : WellFormed s.key.keytbl) (words : Words repltbl) (hash : HashOrder)
    {s' : Session} (ran : replaceAll { t with hash } fuel repltbl s = .ok s') {a z : Str}
    (stored : Stored s.key.keytbl a) (first : ∀ k, field repltbl k ≠ some a)
    (here : field (mergeChains repltbl (hash.order repltbl.keys)) a = some z)
    (early : ∀ pre post, pairs hash (mergeChains repltbl (hash.order repltbl.keys)) =
      pre ++ (a, z) :: post → ∀ e ∈ post, e.1 ≠ z) : Stored s'.key.keytbl z := by
  unfold replaceAll at ran
  dsimp only at ran
  generalize merge : mergeChains repltbl (hash.order repltbl.keys) = merged at ran here early
  have member : (a, z) ∈ pairs hash merged := (mem_pairs _ _ _ _).mpr here
  obtain ⟨pre, post, parts⟩ := List.append_of_mem member
  have distinct := pairs_nodup hash merged
  have listed : ∀ e ∈ pairs hash merged, DigitFree e.1 ∧ e.2 ≠ a := by
    intro e inside
    have found := (mem_pairs hash merged e.1 e.2).mp inside
    rw [← merge] at found
    obtain ⟨k, value⟩ := mergeChains_value found
    exact ⟨merged_word words found, fun same => first k (same ▸ value)⟩
  rw [parts] at ran distinct listed
  rw [List.foldlM_append, bind_eq_ok] at ran
  obtain ⟨before, one, ran⟩ := ran
  rw [List.foldlM_cons, bind_eq_ok] at ran
  obtain ⟨after, two, three⟩ := ran
  rw [List.map_append, List.map_cons, List.nodup_append] at distinct
  obtain ⟨p, i, held⟩ := wf.holds stored
  obtain ⟨j, held'⟩ := (replace_keeps pre (fun e inside => (listed e (by simp [inside])).1) one a
    fun e inside same => distinct.2.2 e.1 (List.mem_map_of_mem inside) a (by simp) same).2
    (fun e inside => (listed e (by simp [inside])).2) p i held
  have apart : a ≠ z := Ne.symm (listed (a, z) (by simp)).2
  exact (replace_keeps post (fun e inside => (listed e (by simp [inside])).1) three z
    (early pre post parts)).1 (replaceword_brings apart two held')

/-- What is stored gives way to nothing: the word before it would come first and delete its entry. -/
theorem first_of_alwaysResolved (words : Words repltbl) (always : AlwaysResolved t fuel repltbl s) {a : Str}
    (listed : a ∈ repltbl) (stored : Stored s.key.keytbl a) (c : Str) : field repltbl c ≠ some a := by
  intro comes
  obtain ⟨order, visits, _⟩ := front_head c [] (mem_of_field comes)
  obtain ⟨s', ran, gone, _⟩ := always.1 (front [c])
  refine gone a listed ?_
  unfold replaceAll at ran
  dsimp only at ran
  rw [visits] at ran
  have deleted : field (mergeChains repltbl (c :: order)) a = none := by
    refine @mergeChains_free (mergeEntry repltbl c) order _ ?_
    rcases mergeEntry_cases repltbl c with ⟨unchanged, none⟩ | ⟨r, last, comes', _, fields⟩
    · rw [unchanged]
      exact none a comes
    · have same : r = a := Option.some.inj (comes'.symm.trans comes)
      rw [fields, if_pos same.symm]
  refine (replace_keeps _ (fun e inside => merged_word words ((mem_pairs _ _ e.1 e.2).mp inside)) ran a
    fun e inside same => ?_).1 stored
  have found := (mem_pairs _ _ e.1 e.2).mp inside
  rw [same, deleted] at found
  cases found

/-- Visiting the end of the second step and then its beginning leaves an entry that skips the middle. -/
theorem mergeChains_skips (acyclic : Acyclic repltbl) {a b c d : Str} (here : field repltbl a = some b)
    (next : field repltbl b = some c) (third : field repltbl c = some d)
    (notRight : ∀ k, field repltbl k ≠ some a) {order : List Str} (absent : a ∉ order) :
    field (mergeChains repltbl (c :: a :: order)) a = some c := by
  have first : a ≠ b := acyclic.ne here
  have apart : a ≠ c := acyclic.ne_two here next
  have after : field (mergeEntry repltbl c) a = some b ∧ field (mergeEntry repltbl c) b = some c := by
    rcases mergeEntry_cases repltbl c with ⟨same, _⟩ | ⟨r, last, own, _, fields⟩
    · rw [same]
      exact ⟨here, next⟩
    · have deleted : r = d := Option.some.inj (own.symm.trans third)
      subst deleted
      have kept : a ≠ r := fun same => notRight c (same ▸ third)
      rw [fields, fields, if_neg kept, if_neg apart, if_neg (acyclic.ne_two next third), if_neg (acyclic.ne next)]
      exact ⟨here, next⟩
  refine @mergeChains_entry (mergeEntry (mergeEntry repltbl c) a) _ _ _ ?_ (fun k found => ?_) absent
  · rcases mergeEntry_cases (mergeEntry repltbl c) a with ⟨_, none⟩ | ⟨r, last, own, last', fields⟩
    · have free := none b after.1
      rw [after.2] at free
      cases free
    · have same : r = b := Option.some.inj (own.symm.trans after.1)
      subst same
      rw [fields, if_neg first, if_pos rfl, ← last', after.2]
  · obtain ⟨k', found'⟩ := mergeEntry_value found
    obtain ⟨k'', found''⟩ := mergeEntry_value found'
    exact notRight k'' found''

/-- In a table that begins with `c`, nothing behind the entry of another word replaces `c`. -/
theorem front_behind {c : Str} {rest : List Str} {merged : Table Str} {a z : Str} (apart : a ≠ c)
    {pre post : List (Str × Str)} (parts : pairs (front (c :: rest)) merged = pre ++ (a, z) :: post) :
    ∀ e ∈ post, e.1 ≠ c := by
  intro e inside same
  have distinct := pairs_nodup (front (c :: rest)) merged
  have keys := pairs_fst (front (c :: rest)) merged
  have member : e ∈ pairs (front (c :: rest)) merged := by
    rw [parts]
    simp [inside]
  have kept : c ∈ merged := mem_of_field (same ▸ (mem_pairs _ _ e.1 e.2).mp member)
  obtain ⟨order, shape, _⟩ := front_head c rest kept
  rw [shape, parts] at keys
  rw [parts] at distinct
  cases pre with
  | nil => exact apart (List.cons.inj keys).1
  | cons e' pre =>
      have head : e'.1 = c := (List.cons.inj keys).1
      rw [List.cons_append, List.map_cons, List.nodup_cons] at distinct
      exact distinct.1 (by rw [head, ← same]; exact List.mem_map_of_mem (by simp [inside]))

/-- There is no third step: its left side would come first, and its turn be over when the second step brings it in. -/
theorem ends_of_alwaysResolved (wf : WellFormed s.key.keytbl) (acyclic : Acyclic repltbl) (words : Words repltbl)
    (always : AlwaysResolved t fuel repltbl s) {a b c : Str} (stored : Stored s.key.keytbl a)
    (here : field repltbl a = some b) (next : field repltbl b = some c)
    (notRight : ∀ k, field repltbl k ≠ some a) : field repltbl c = none := by
  by_contra longer
  obtain ⟨d, third⟩ := Option.ne_none_iff_exists'.mp longer
  have apart : a ≠ c := acyclic.ne_two here next
  have visits : (front [c, a]).order repltbl.keys = c :: a :: (repltbl.keys.filter (¬ · = c)).filter (¬ · = a) := by
    rw [front_order c [a] _ repltbl.keys_nodup, if_pos (AList.mem_keys.mp (mem_of_field third)),
      front_order a [] _ (repltbl.keys_nodup.filter _), if_pos]
    · rfl
    · simpa [apart] using AList.mem_keys.mp (mem_of_field here)
  have merged : field (mergeChains repltbl ((front [c, a]).order repltbl.keys)) a = some c := by
    rw [visits]
    exact mergeChains_skips acyclic here next third notRight (by simp)
  obtain ⟨s', ran, gone, _⟩ := always.1 (front [c, a])
  exact gone c (mem_of_field third)
    (leaves_left wf words _ ran stored notRight merged fun _ _ parts => front_behind apart parts)

/-- No other word has the same next one: it would come first and delete the entry that this one needs. -/
theorem alone_of_alwaysResolved (wf : WellFormed s.key.keytbl) (acyclic : Acyclic repltbl) (words : Words repltbl)
    (always : AlwaysResolved t fuel repltbl s) {a a' b c : Str} (stored : Stored s.key.keytbl a)
    (here : field repltbl a = some b) (next : field repltbl b = some c)
    (notRight : ∀ k, field repltbl k ≠ some a) (other : field repltbl a' = some b) : a' = a := by
  by_contra apart
  obtain ⟨order, visits, _⟩ := front_head a' [] (mem_of_field other)
  have settled : Settled (mergeChains repltbl ((front [a']).order repltbl.keys)) a b := by
    rw [visits]
    refine @Settled.mergeChains (mergeEntry repltbl a') _ _ ?_ order
    rcases mergeEntry_cases repltbl a' with ⟨_, none⟩ | ⟨r, last, own, _, fields⟩
    · have free := none b other
      rw [next] at free
      cases free
    · have same : r = b := Option.some.inj (own.symm.trans other)
      subst same
      refine ⟨by rw [fields, if_neg (acyclic.ne here), if_neg (Ne.symm apart), here], by rw [fields, if_pos rfl],
        fun k found => ?_⟩
      obtain ⟨k', found'⟩ := mergeEntry_value found
      exact notRight k' found'
  obtain ⟨s', ran, gone, _⟩ := always.1 (front [a'])
  refine gone b (mem_of_field next)
    (leaves_left wf words _ ran stored notRight settled.here fun pre post parts e inside same => ?_)
  have member : e ∈ pairs (front [a']) (mergeChains repltbl ((front [a']).order repltbl.keys)) := by
    rw [parts]
    simp [inside]
  have found := (mem_pairs _ _ e.1 e.2).mp member
  rw [same, settled.last] at found
  cases found

theorem resolvable_of_alwaysResolved (wf : WellFormed s.key.keytbl) (acyclic : Acyclic repltbl)
    (words : Words repltbl) (always : AlwaysResolved t fuel repltbl s) :
    Resolvable repltbl s.key.keytbl := by
  intro a b stored here
  have notRight := first_of_alwaysResolved words always (mem_of_field here) stored
  exact ⟨notRight, fun c next => ⟨ends_of_alwaysResolved wf acyclic words always stored here next notRight,
    fun a' other => alone_of_alwaysResolved wf acyclic words always stored here next notRight other⟩⟩

end

/-- Repair Key resolves an acyclic replacement map in every order just when the map is
resolvable. -/
theorem alwaysResolved_iff (t : Tables) (fuel : Nat) (repltbl : Table Str) (s : Session)
    (wf : WellFormed s.key.keytbl) (counted : Counted s.key) (acyclic : Acyclic repltbl)
    (words : Words repltbl) (rewritable : Rewritable t fuel repltbl s) :
    AlwaysResolved t fuel repltbl s ↔ Resolvable repltbl s.key.keytbl :=
  ⟨resolvable_of_alwaysResolved wf acyclic words,
    alwaysResolved_of_resolvable wf counted words rewritable⟩

def tectumChain : Table Str :=
  AList.insert (lit "tectum") (lit "tecta") (AList.insert (lit "tecta") (lit "tecto") ∅)

theorem tectumChain_entry {a b : Str} (here : field tectumChain a = some b) :
    (a = lit "tectum" ∧ b = lit "tecta") ∨ (a = lit "tecta" ∧ b = lit "tecto") := by
  have each : ∀ e ∈ tectumChain.entries,
      (e.1 = lit "tectum" ∧ e.2 = lit "tecta") ∨ (e.1 = lit "tecta" ∧ e.2 = lit "tecto") := by
    decide
  exact each ⟨a, b⟩ (AList.mem_lookup_iff.mp here)

theorem tectumChain_acyclic : Acyclic tectumChain := by
  let rank (w : Str) : Nat := if w = lit "tectum" then 2 else if w = lit "tecta" then 1 else 0
  have values : rank (lit "tectum") = 2 ∧ rank (lit "tecta") = 1 ∧ rank (lit "tecto") = 0 := by
    decide
  have falls {a b : Str} (path : Relation.TransGen (fun a b => field tectumChain a = some b) a b) :
      rank b < rank a := by
    induction path with
    | single here =>
        rcases tectumChain_entry here with ⟨rfl, rfl⟩ | ⟨rfl, rfl⟩ <;> omega
    | tail _ here ih =>
        rcases tectumChain_entry here with ⟨rfl, rfl⟩ | ⟨rfl, rfl⟩ <;> omega
  exact fun w cycle => absurd (falls cycle) (lt_irrefl _)

theorem tectumChain_words : Words tectumChain := by
  intro a b here
  rcases tectumChain_entry here with ⟨rfl, rfl⟩ | ⟨rfl, rfl⟩
  · exact ⟨⟨by decide, exists_ok (by decide)⟩, by decide,
      exists_ok (by decide)⟩
  · exact ⟨⟨by decide, exists_ok (by decide)⟩, by decide,
      exists_ok (by decide)⟩

def handSession (forms : List Str) : Session where
  key :=
    { keytbl := forms.foldl (fun keytbl w => learnForm keytbl w w) ∅
      freqtbl := forms.foldl (fun freqtbl w => freqtbl.insert w 0) ∅
      headerstbl := forms.foldl (fun headerstbl w => headerstbl.insert w ∅) ∅
      headersbynumtbl := [] }
  textstbl := ∅

theorem handSession_wellFormed (forms : List Str)
    (plains : ∀ w ∈ forms, plain w = .ok w ∧ DigitFree w) :
    WellFormed (handSession forms).key.keytbl := by
  have grows (keytbl : Table Str) (wf : WellFormed keytbl) :
      WellFormed (forms.foldl (fun keytbl w => learnForm keytbl w w) keytbl) := by
    induction forms generalizing keytbl with
    | nil => exact wf
    | cons w forms ih =>
        obtain ⟨same, word⟩ := plains w (by simp)
        exact ih (fun v member => plains v (by simp [member])) _ (wf.learnForm same word)
  exact grows ∅ wellFormed_empty

theorem handSession_counted (forms : List Str)
    (each : ∀ e ∈ (handSession forms).key.keytbl.entries,
      field (handSession forms).key.freqtbl e.2 ≠ none ∧
        e.2 ∈ (handSession forms).key.headerstbl) : Counted (handSession forms).key := by
  rintro w ⟨k, found⟩
  obtain ⟨freq, headers⟩ := each ⟨k, w⟩ (AList.mem_lookup_iff.mp found)
  obtain ⟨freq, count⟩ := Option.ne_none_iff_exists'.mp freq
  obtain ⟨headers, sourced⟩ := exists_field headers
  exact ⟨freq, headers, count, sourced⟩

theorem handSession_rewritable (t : Tables) (fuel : Nat) (repltbl : Table Str) (forms : List Str) :
    Rewritable t fuel repltbl (handSession forms) := by
  have empty (headerstbl : Table (Table Unit))
      (none : ∀ w headers, field headerstbl w = some headers → ∀ h, h ∉ headers) (a h : Str)
      (headers : Table Unit)
      (found : field (forms.foldl (fun headerstbl w => headerstbl.insert w ∅) headerstbl) a =
        some headers) : h ∉ headers := by
    induction forms generalizing headerstbl with
    | nil => exact none a headers found h
    | cons w forms ih =>
        refine ih _ (fun v headers found => ?_) found
        by_cases here : v = w
        · rw [here, field_insert] at found
          cases found
          simp
        · rw [field_insert_ne _ _ _ _ here] at found
          exact none v headers found
  refine ⟨fun _ => True, trivial, fun hash a b k h _ _ carried => ?_⟩
  obtain ⟨headers, found, member⟩ := carried
  exact absurd member (empty ∅ (by simp [field]) a h headers found)

theorem alwaysResolved_tectum :
    AlwaysResolved .empty 9 tectumChain (handSession [lit "tectum"]) := by
  have only : ∀ e ∈ (handSession [lit "tectum"]).key.keytbl.entries, e.2 = lit "tectum" := by
    decide
  refine (alwaysResolved_iff .empty 9 tectumChain (handSession [lit "tectum"])
    (handSession_wellFormed _ (by decide)) (handSession_counted _ (by decide))
    tectumChain_acyclic tectumChain_words (handSession_rewritable _ _ _ _)).mpr ?_
  rintro a b ⟨k, found⟩ here
  obtain rfl : a = lit "tectum" := only ⟨k, a⟩ (AList.mem_lookup_iff.mp found)
  have next : b = lit "tecta" := by
    rcases tectumChain_entry here with ⟨_, rfl⟩ | ⟨other, _⟩
    · rfl
    · exact absurd other (by decide)
  subst next
  refine ⟨fun k comes => ?_, fun c further => ⟨?_, fun k comes => ?_⟩⟩
  · rcases tectumChain_entry comes with ⟨_, other⟩ | ⟨_, other⟩
    · exact absurd other (by decide)
    · exact absurd other (by decide)
  · rcases tectumChain_entry further with ⟨other, _⟩ | ⟨_, rfl⟩
    · exact absurd other (by decide)
    · decide
  · rcases tectumChain_entry comes with ⟨rfl, _⟩ | ⟨_, other⟩
    · rfl
    · exact absurd other (by decide)

/-- When `tecta` is stored too, an order that has `tectum` first leaves it in the key. -/
theorem replaceAll_tecta_left :
    ¬ ∀ (t : Tables) (fuel : Nat) (repltbl : Table Str) (s : Session), WellFormed s.key.keytbl →
      Counted s.key → Acyclic repltbl → Words repltbl → Rewritable t fuel repltbl s →
      AlwaysResolved t fuel repltbl s := by
  intro claim
  have always := claim .empty 9 tectumChain (handSession [lit "tectum", lit "tecta"])
    (handSession_wellFormed _ (by decide)) (handSession_counted _ (by decide))
    tectumChain_acyclic tectumChain_words (handSession_rewritable _ _ _ _)
  obtain ⟨s', ran, gone, _⟩ := always.1 (front [lit "tectum"])
  have left : (fun s : Session => decide (Stored s.key.keytbl (lit "tecta"))) <$>
      replaceAll { Tables.empty with hash := front [lit "tectum"] } 9 tectumChain
        (handSession [lit "tectum", lit "tecta"]) = .ok true := by decide
  rw [ran] at left
  exact gone (lit "tecta") (by decide) (by simpa using left)

end Maccer
