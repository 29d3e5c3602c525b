import BotManager.DeferredOnce

/-!
A refusal is honoured at delivery, as long as a row keeps the dossier it was written about and
nothing is refused between a delivery's check and its speech.

The check asks the id that the row holds when it is claimed. A merge moves the refusals to the
survivor and deletes the dossier the row names, which sets the column to NULL; nobody answers to
that, so the check passes.
-/

namespace BotManager.DeferredRefusal
open List DossierModel DeferredModel FramePool StepRun

variable {f : Frame} {frames calls others : List Frame} {m m' : Desk} {id bot now ns : ℕ}
    {claim : Claimed} {cal : Calendar} {yes : Bool} {s : Sys}

def isChore (source : Source) : Bool := (choreOfSource source).isSome

def inHand (frames : List Frame) (i : ℕ) : Bool := frames.any fun f => f.claim.any fun c => c.id = i

/-- A row of a chore that is pending or in delivery names the dossier. -/
def named (m : Desk) (frames : List Frame) (a : ℕ) : Bool :=
  ((range m.nextRow).any fun i => (m.rows i).any fun row =>
    isChore row.source && (row.delivered = none || inHand frames i) && row.dossier = some a) ||
  frames.any fun f => f.claim.any fun c => isChore c.source && c.dossier = a

/-- A merge leaves the dossiers alone that chores' rows still name. Between the check and the
speech of a delivery its person does not opt out, nor absorbs somebody who had. -/
def Spares (s : Sys) : Op → Prop
  | .optout id out _ => out = true →
      ∀ f ∈ s.threads.flatten, ∀ c ∈ f.checked, isChore c.source → c.dossier ≠ id
  | .merge survivor absorbed =>
    (∀ a ∈ absorbed, named s.desk s.threads.flatten a = false) ∧
    ∀ f ∈ s.threads.flatten, ∀ c ∈ f.checked, ∀ chore ∈ choreOfSource c.source,
      c.dossier = survivor → ∀ a ∈ absorbed, chatbotOptoutHas s.desk.store a chore = false
  | _ => True

instance (s : Sys) (op : Op) : Decidable (Spares s op) := by
  unfold Spares
  split <;> infer_instance

/-! ## Rows and claims that know whom they are about -/

def Sound (store : Store) (dossier subject : ℕ) : Prop :=
  dossier = subject ∧ (subject = 0 ∨ Live store subject)

structure Faithful (m : Desk) (frames : List Frame) : Prop where
  known : ∀ i row, m.rows i = some row → i < m.nextRow
  bounded : ∀ d, Live m.store d → d ≤ m.store.serial
  heirs : ∀ d, d = 0 ∨ Live m.store d ∨ m.store.serial < d → m.heir d = d
  rows : ∀ i row, m.rows i = some row → isChore row.source = true →
    row.delivered = none ∨ inHand frames i = true → Sound m.store (row.dossier.getD 0) row.subject
  claims : ∀ f ∈ frames, ∀ c, f.claim = some c → isChore c.source = true →
    Sound m.store c.dossier c.subject
  checked : ∀ f ∈ frames, ∀ c, f.checked = some c → ∀ chore, choreOfSource c.source = some chore →
    chatbotOptoutHas m.store c.dossier chore = false
  honoured : ∀ e ∈ m.log, ∀ refusing, e.fate = .spoken refusing → refusing = false

variable {chore : Chore} {i : ℕ} {row : Row} {store : Store}

theorem isChore_of_some {source : Source} (found : choreOfSource source = some chore) :
    isChore source = true := by rw [isChore, found]; rfl

theorem inHand_iff : inHand frames i = true ↔ ∃ f ∈ frames, ∃ c, f.claim = some c ∧ c.id = i := by
  simp only [inHand, any_eq_true, Option.any_eq_true, decide_eq_true_eq]

theorem Faithful.perm {frames' : List Frame} (inv : Faithful m frames) (same : frames.Perm frames') :
    Faithful m frames' where
  __ := inv
  rows i row there chore waits := by
    refine inv.rows i row there chore (waits.imp_right fun held => ?_)
    obtain ⟨f, mem, c, has⟩ := inHand_iff.mp held
    exact inHand_iff.mpr ⟨f, same.mem_iff.mpr mem, c, has⟩
  claims f mem := inv.claims f (same.mem_iff.mpr mem)
  checked f mem := inv.checked f (same.mem_iff.mpr mem)

def About (f : Frame) (i : ℕ) (row row' : Option Row) : Prop :=
  ∀ r', row' = some r' → ∃ r, row = some r ∧
    r'.source = r.source ∧ r'.dossier = r.dossier ∧ r'.subject = r.subject ∧
    (r'.delivered = none → r.delivered = none ∨ f.claim.map Claimed.id = some i)

structure Tame (m m' : Desk) (f : Frame) (calls : List Frame) : Prop where
  store : m'.store = m.store
  heir : m'.heir = m.heir
  next : m'.nextRow = m.nextRow
  rows : ∀ i, About f i (m.rows i) (m'.rows i)
  claims : ∀ g ∈ calls, ∀ c, g.claim = some c → f.claim = some c ∨
    ∃ row bot now, m.rows c.id = some row ∧ row.delivered = none ∧ c = row.claimed c.id bot now
  checked : ∀ g ∈ calls, ∀ c, g.checked = some c → f.checked = some c ∨
    ∀ chore, choreOfSource c.source = some chore → chatbotOptoutHas m.store c.dossier chore = false
  log : ∀ e ∈ m'.log, e ∈ m.log ∨ ∀ refusing, e.fate = .spoken refusing →
    ∃ c, f.checked = some c ∧ refusing = m.refusing c

theorem Faithful.tame (inv : Faithful m (f :: others)) (turn : Tame m m' f calls) :
    Faithful m' (calls ++ others) := by
  obtain ⟨store, heir, next, rows, claims, checked, log⟩ := turn
  refine ⟨fun i row there => ?_, store ▸ inv.bounded, ?_, fun i row there chore waits => ?_,
    fun g mem c has chore => ?_, fun g mem c has chore found => ?_, fun e mem refusing said => ?_⟩
  · obtain ⟨r, before, -⟩ := rows i row there
    exact next ▸ inv.known i r before
  · rw [store, heir]
    exact inv.heirs
  · obtain ⟨r, before, source, dossier, subject, pending⟩ := rows i row there
    rw [store, dossier, subject]
    refine inv.rows i r before (source ▸ chore) ?_
    rcases waits with waits | held
    · refine (pending waits).imp_right fun mine => ?_
      obtain ⟨c, has, same⟩ := Option.map_eq_some_iff.mp mine
      exact inHand_iff.mpr ⟨f, .head _, c, has, same⟩
    · obtain ⟨g, mem, c, has, rfl⟩ := inHand_iff.mp held
      rcases mem_append.mp mem with called | old
      · rcases claims g called c has with mine | ⟨r', bot, now, there', waits, -⟩
        · exact .inr (inHand_iff.mpr ⟨f, .head _, c, mine, rfl⟩)
        · cases there'.symm.trans before
          exact .inl waits
      · exact .inr (inHand_iff.mpr ⟨g, .tail _ old, c, has, rfl⟩)
  · rw [store]
    rcases mem_append.mp mem with called | old
    · rcases claims g called c has with mine | ⟨row, bot, now, there, waits, same⟩
      · exact inv.claims f (.head _) c mine chore
      · have source : c.source = row.source := by rw [same]; rfl
        have ids : c.dossier = row.dossier.getD 0 ∧ c.subject = row.subject := by
          rw [same]
          exact ⟨rfl, rfl⟩
        rw [ids.1, ids.2]
        exact inv.rows c.id row there (source ▸ chore) (.inl waits)
    · exact inv.claims g (.tail _ old) c has chore
  · rw [store]
    rcases mem_append.mp mem with called | old
    · rcases checked g called c has with mine | clear
      · exact inv.checked f (.head _) c mine chore found
      · exact clear chore found
    · exact inv.checked g (.tail _ old) c has chore found
  · rcases log e mem with old | new
    · exact inv.honoured e old refusing said
    · -- the person still answers to the id that was checked
      obtain ⟨c, passed, rfl⟩ := new refusing said
      cases found : choreOfSource c.source with
      | none => rw [Desk.refusing, found]; rfl
      | some chore =>
        obtain ⟨same, there⟩ :=
          inv.claims f (.head _) c (checked_claim passed) (isChore_of_some found)
        have own : m.heir c.subject = c.subject := inv.heirs _ (there.imp_right .inl)
        rw [Desk.refusing, found, Option.any_some, own, ← same]
        exact inv.checked f (.head _) c passed chore found

/-! ## Every turn is tame -/

theorem About.refl (i : ℕ) (row : Option Row) : About f i row row :=
  fun r' there => ⟨r', there, rfl, rfl, rfl, .inl⟩

theorem about_setRow (there : m.rows id = some row) {after : Option Row}
    (like : About f id (some row) after) : ∀ i, About f i (m.rows i) ((m.setRow id after).rows i) :=
  setRow_rel About.refl (there ▸ like)

theorem tame_silent (store : m'.store = m.store) (heir : m'.heir = m.heir)
    (next : m'.nextRow = m.nextRow) (log : m'.log = m.log)
    (rows : ∀ i, About f i (m.rows i) (m'.rows i)) (silent : ∀ g ∈ calls, g.claim = none) :
    Tame m m' f calls := by
  have none {g : Frame} {c : Claimed} (mem : g ∈ calls) : g.claim ≠ some c := by
    rw [silent g mem]
    exact nofun
  exact ⟨store, heir, next, rows, fun g mem c has => absurd has (none mem),
    fun g mem c has => absurd (checked_claim has) (none mem), fun e mem => .inl (log ▸ mem)⟩

theorem log_record {fate : Fate} (said : ∀ refusing, fate = .spoken refusing →
      f.checked = some claim ∧ refusing = m.refusing claim) :
    ∀ e ∈ (m.record claim fate).log, e ∈ m.log ∨ ∀ refusing, e.fate = .spoken refusing →
      ∃ c, f.checked = some c ∧ refusing = m.refusing c :=
  forall_mem_append.mpr ⟨fun _ => .inl, forall_mem_singleton.mpr
    (.inr fun refusing same => ⟨claim, said refusing same⟩)⟩

theorem tame_commit {waiting taken : List ℕ}
    (locked : DeferredOnce.Locked m (.sweep ns bot now waiting taken :: others)) :
    Tame m (m.claimAll cal now taken) (.sweep ns bot now waiting taken)
      (m.deliveries bot now taken) := by
  have pending {i : ℕ} (held : i ∈ taken) : ∃ row, m.rows i = some row ∧ row.delivered = none := by
    obtain ⟨row, there, due⟩ := locked.due _ (.head _) i held
    exact ⟨row, there, (dueFor_iff.mp due).2.1⟩
  refine ⟨rfl, rfl, rfl, fun i row' found => ?_, fun g mem c has => .inr ?_, fun g mem c has => ?_,
    fun _ => .inl⟩
  · by_cases held : i ∈ taken
    · obtain ⟨row, there, waits⟩ := pending held
      rw [Desk.claimAll] at found
      simp only [held, ↓reduceIte, there, Option.map_some, Option.some.injEq] at found
      subst found
      exact ⟨row, there, rfl, rfl, rfl, fun _ => .inl waits⟩
    · rw [Desk.claimAll] at found
      simp only [held, ↓reduceIte] at found
      exact About.refl i _ row' found
  · obtain ⟨i, held, row, there, rfl⟩ := DeferredOnce.deliveries_claim mem
    cases has
    obtain ⟨same, found, waits⟩ := pending held
    cases there.symm.trans found
    exact ⟨row, bot, now, there, waits, rfl⟩
  · obtain ⟨i, -, row, -, rfl⟩ := DeferredOnce.deliveries_claim mem
    cases has

theorem tame_turn (locked : DeferredOnce.Locked m (f :: others)) (turn : Turn cal m f m' calls) :
    Tame m m' f calls := by
  cases turn with
  | commit => exact tame_commit locked
  | skip _ =>
    exact tame_silent rfl rfl rfl rfl (fun i => About.refl i _) (forall_mem_singleton.mpr rfl)
  | lock _ there =>
    refine tame_silent rfl rfl rfl rfl (about_setRow there fun r' same => ?_)
      (forall_mem_singleton.mpr rfl)
    cases same
    exact ⟨_, rfl, rfl, rfl, rfl, .inl⟩
  | miss _ rest =>
    exact tame_silent rfl rfl rfl rfl (fun i => About.refl i _) fun g mem => idle_claim (rest g mem)
  | lapse _ there =>
    refine ⟨rfl, rfl, rfl, about_setRow there fun r' same => ?_, by simp [Frame.claim],
      by simp [Frame.checked], log_record nofun⟩
    cases same
    exact ⟨_, rfl, rfl, rfl, rfl, nofun⟩
  | @present ns bot now id row there _ present =>
    refine ⟨rfl, rfl, rfl, about_setRow there fun r' same => ?_,
      forall_mem_singleton.mpr fun c has => .inr ?_, by simp [Frame.checked], fun _ => .inl⟩
    · cases same
      exact ⟨_, rfl, rfl, rfl, rfl, nofun⟩
    · cases has
      exact ⟨row, bot, now, there, (presentFor_iff.mp present).2.1, rfl⟩
  | stop there => exact tame_silent rfl rfl rfl rfl (about_setRow there nofun) (by simp)
  | drop _ => exact tame_silent rfl rfl rfl rfl (fun i => About.refl i _) (by simp)
  | putBack _ there =>
    refine tame_silent rfl rfl rfl rfl (about_setRow there fun r' same => ?_) (by simp)
    cases same
    exact ⟨_, rfl, rfl, rfl, rfl, fun _ => .inr rfl⟩
  | @pass f g claim stops before after idle _ checked =>
    refine ⟨rfl, rfl, rfl, fun i => About.refl i _, forall_mem_append.mpr ⟨?_, ?_⟩,
      forall_mem_append.mpr ⟨?_, ?_⟩, fun _ => .inl⟩
    · intro h mem c has
      rw [idle_claim (idle h mem)] at has
      cases has
    · refine forall_mem_singleton.mpr fun c has => .inl ?_
      rw [before, ← after, has]
    · intro h mem c has
      have none := idle_claim (idle h mem)
      rw [checked_claim has] at none
      cases none
    · refine forall_mem_singleton.mpr fun c has => ?_
      cases after.symm.trans (checked_claim has)
      refine (checked has).imp_right fun clear chore found => ?_
      rwa [found, Option.any_some] at clear
  | settle before said =>
    refine ⟨rfl, rfl, rfl, fun i => About.refl i _, by simp, by simp, log_record ?_⟩
    intro refusing same
    obtain ⟨rfl, spoken⟩ := said refusing same
    exact ⟨before, spoken⟩

/-! ## Runs -/

theorem faithful_created : Faithful created.desk created.threads.flatten := by
  refine ⟨by simp [created], fun d => ?_, fun _ _ => rfl, by simp [created], by simp [created],
    by simp [created], by simp [created]⟩
  rintro ⟨p, mem, -⟩
  cases mem

theorem Faithful.spawn (inv : Faithful s.desk s.threads.flatten) {frame : Frame}
    (idle : frame.claim = none) :
    Faithful (s.spawn frame).desk (s.spawn frame).threads.flatten := by
  have frames : (s.spawn frame).threads.flatten = s.threads.flatten ++ [frame] :=
    flatten_spawn s.threads [frame]
  have old {f : Frame} {c : Claimed} (mem : f ∈ s.threads.flatten ++ [frame])
      (has : f.claim = some c) : f ∈ s.threads.flatten := by
    rcases mem_append.mp mem with there | new
    · exact there
    · obtain rfl := mem_singleton.mp new
      rw [idle] at has
      cases has
  rw [frames]
  refine ⟨inv.known, inv.bounded, inv.heirs, fun i row there chore waits => ?_,
    fun f mem c has => inv.claims f (old mem has) c has,
    fun f mem c has => inv.checked f (old mem (checked_claim has)) c has, inv.honoured⟩
  refine inv.rows i row there chore (waits.imp_right fun held => ?_)
  obtain ⟨f, mem, c, has, same⟩ := inHand_iff.mp held
  exact inHand_iff.mpr ⟨f, old mem has, c, has, same⟩

theorem Faithful.insert {o : Order} (inv : Faithful m frames) (accepted : o.Accepted m.store) :
    Faithful (m.insert o.row) frames := by
  refine ⟨fun i row there => ?_, inv.bounded, inv.heirs, fun i row there chore waits => ?_,
    inv.claims, inv.checked, inv.honoured⟩
  · change i < m.nextRow + 1
    by_cases new : i = m.nextRow
    · omega
    · have old := inv.known i row ((setRow_of_ne new (some o.row)).symm.trans there)
      omega
  · by_cases new : i = m.nextRow
    · subst new
      obtain rfl := Option.some.inj ((setRow_self m m.nextRow (some o.row)).symm.trans there)
      rcases accepted.1 with nobody | there
      · refine ⟨?_, .inl nobody⟩
        simp [Order.row, nobody]
      · have live := live_iff.mp there
        refine ⟨?_, .inr live⟩
        simp [Order.row, live.positive]
    · exact inv.rows i row ((setRow_of_ne new (some o.row)).symm.trans there) chore waits

theorem Faithful.meet (inv : Faithful m frames) (ns : ℕ) (sig : Signature) (label : CText.Bytes) :
    Faithful { m with store := (dossierCreate m.store ns sig label).1 } frames := by
  have more {d e : ℕ} (sound : Sound m.store d e) :
      Sound (dossierCreate m.store ns sig label).1 d e :=
    ⟨sound.1, sound.2.imp_right fun live => live_dossierCreate.mpr (.inl live)⟩
  refine ⟨inv.known, fun d live => ?_, fun d there => inv.heirs d ?_,
    fun i row there chore waits => more (inv.rows i row there chore waits),
    fun f mem c has chore => more (inv.claims f mem c has chore), inv.checked, inv.honoured⟩
  · change d ≤ m.store.serial + 1
    rcases live_dossierCreate.mp live with old | new
    · have := inv.bounded d old
      omega
    · omega
  · change d = 0 ∨ Live _ d ∨ m.store.serial + 1 < d at there
    rcases there with zero | live | high
    · exact .inl zero
    · rcases live_dossierCreate.mp live with old | new
      · exact .inr (.inl old)
      · exact .inr (.inr (by omega))
    · exact .inr (.inr (by omega))

theorem not_refused (clear : chatbotOptoutHas store id chore = false) (positive : 0 < id) :
    ¬ Refused store id chore := by
  intro refused
  rw [optoutHas_iff.mpr ⟨positive, refused⟩] at clear
  cases clear

theorem Faithful.optout {out : Bool} {req : Mask} (inv : Faithful s.desk s.threads.flatten)
    (spares : Spares s (.optout id out req)) :
    Faithful { s.desk with store := optoutApply s.desk.store id out req } s.threads.flatten := by
  obtain ⟨dossiers, serial⟩ := optoutApply_dossiers s.desk.store id out req
  have live (d : ℕ) : Live (optoutApply s.desk.store id out req) d ↔ Live s.desk.store d := by
    rw [Live, Live, dossiers]
  have keep {d e : ℕ} (sound : Sound s.desk.store d e) :
      Sound (optoutApply s.desk.store id out req) d e :=
    ⟨sound.1, sound.2.imp_right (live e).mpr⟩
  refine ⟨inv.known, fun d there => ?_, fun d there => inv.heirs d ?_,
    fun i row there chore waits => keep (inv.rows i row there chore waits),
    fun f mem c has chore => keep (inv.claims f mem c has chore), fun f mem c has chore found => ?_,
    inv.honoured⟩
  · change d ≤ (optoutApply s.desk.store id out req).serial
    rw [serial]
    exact inv.bounded d ((live d).mp there)
  · change d = 0 ∨ Live _ d ∨ (optoutApply s.desk.store id out req).serial < d at there
    rwa [live, serial] at there
  · refine Bool.eq_false_iff.mpr fun now => ?_
    obtain ⟨positive, refused⟩ := optoutHas_iff.mp now
    rcases refused_optoutApply refused with before | ⟨same, opts⟩
    · exact not_refused (inv.checked f mem c has chore found) positive before
    · exact spares opts f mem c has (isChore_of_some found) same

theorem named_row {a : ℕ} (known : i < m.nextRow) (there : m.rows i = some row)
    (chore : isChore row.source = true) (waits : row.delivered = none ∨ inHand frames i = true)
    (same : row.dossier = some a) : named m frames a = true := by
  rw [named, Bool.or_eq_true]
  refine .inl (any_eq_true.mpr ⟨i, mem_range.mpr known, ?_⟩)
  rw [there, Option.any_some]
  simpa [chore, same] using waits

theorem named_claim {c : Claimed} (mem : f ∈ frames) (has : f.claim = some c)
    (chore : isChore c.source = true) : named m frames c.dossier = true := by
  rw [named, Bool.or_eq_true]
  refine .inr (any_eq_true.mpr ⟨f, mem, ?_⟩)
  rw [has, Option.any_some]
  simpa using chore

theorem Faithful.merged {survivor : ℕ} {absorbed : List ℕ}
    (inv : Faithful s.desk s.threads.flatten) (spares : Spares s (.merge survivor absorbed))
    (done : dossierMerge s.desk.store survivor absorbed = some store) :
    Faithful (s.desk.merged survivor absorbed store) s.threads.flatten := by
  obtain ⟨unnamed, calm⟩ := spares
  obtain ⟨there, rfl⟩ := dossierMerge_some done
  have live (d : ℕ) : Live (absorbed.foldl (dossierMergeOne survivor) s.desk.store) d ↔
      Live s.desk.store d ∧ d ∉ absorbed := live_mergeAll
  have zero : 0 ∉ absorbed := fun mem => absurd (there 0 mem).positive (lt_irrefl 0)
  have keep {d : ℕ} {subject : ℕ} (sound : Sound s.desk.store d subject) (spared : d ∉ absorbed) :
      Sound (absorbed.foldl (dossierMergeOne survivor) s.desk.store) d subject := by
    obtain ⟨rfl, who⟩ := sound
    exact ⟨rfl, who.imp_right fun lives => (live d).mpr ⟨lives, spared⟩⟩
  refine ⟨fun i row found => ?_, fun d lives => ?_, fun d who => ?_, fun i row found chore waits => ?_,
    fun f mem c has chore => ?_, fun f mem c has chore found => ?_, inv.honoured⟩
  · obtain ⟨r, before, -⟩ := Option.map_eq_some_iff.mp found
    exact inv.known i r before
  · exact (inv.bounded d ((live d).mp lives).1).trans serial_mergeAll.ge
  · change (if s.desk.heir d ∈ absorbed then survivor else s.desk.heir d) = d
    have who : (d = 0 ∨ Live s.desk.store d ∨ s.desk.store.serial < d) ∧ d ∉ absorbed := by
      rcases who with rfl | lives | high
      · exact ⟨.inl rfl, zero⟩
      · exact ⟨.inr (.inl ((live d).mp lives).1), ((live d).mp lives).2⟩
      · have high : s.desk.store.serial < d := serial_mergeAll.ge.trans_lt high
        exact ⟨.inr (.inr high), fun mem => absurd (inv.bounded d (there d mem)) (by omega)⟩
    rw [inv.heirs d who.1, if_neg who.2]
  · obtain ⟨r, before, rfl⟩ := Option.map_eq_some_iff.mp found
    have sound := inv.rows i r before chore waits
    have spared {a : ℕ} (held : r.dossier = some a) : a ∉ absorbed := by
      intro mem
      have free := unnamed a mem
      rw [named_row (inv.known i r before) before chore waits held] at free
      cases free
    have same : (r.detach absorbed).dossier = r.dossier := by
      change r.dossier.filter (· ∉ absorbed) = r.dossier
      cases held : r.dossier with
      | none => rfl
      | some a => rw [Option.filter_some, if_pos (decide_eq_true (spared held))]
    rw [same]
    refine keep sound ?_
    cases held : r.dossier with
    | none => exact zero
    | some a => exact spared held
  · refine keep (inv.claims f mem c has chore) fun gone => ?_
    have free := unnamed _ gone
    rw [named_claim mem has chore] at free
    cases free
  · refine Bool.eq_false_iff.mpr fun now => ?_
    obtain ⟨positive, refused⟩ := optoutHas_iff.mp now
    rcases refused_mergeAll refused with before | ⟨same, a, mem', before⟩
    · exact not_refused (inv.checked f mem c has chore found) positive before
    · exact not_refused (calm f mem c has chore found same a mem') (there a mem').positive before

theorem Faithful.step {t : Sys} {op : Op} (locks : DeferredOnce.Inv s)
    (inv : Faithful s.desk s.threads.flatten) (spares : Spares s op)
    (moved : step cal s op = some t) : Faithful t.desk t.threads.flatten := by
  cases op with
  | turn i yes =>
    obtain ⟨⟨f, rest⟩, found, turned⟩ := Option.bind_eq_some_iff.mp moved
    obtain ⟨⟨m, calls⟩, ran, rfl⟩ := Option.map_eq_some_iff.mp turned
    obtain ⟨before, after⟩ := turn_perm found
    exact ((inv.perm before).tame (tame_turn (locks.locked.perm before) (act_turn ran))).perm
      (after calls).symm
  | sweep ns bot now order | presenceScan ns bot now order =>
    obtain ⟨-, rfl⟩ := fired moved
    exact inv.spawn rfl
  | sighting ns bot now id =>
    cases moved
    exact inv.spawn rfl
  | insert o =>
    obtain ⟨accepted, rfl⟩ := fired moved
    exact inv.insert accepted
  | cancel id =>
    obtain ⟨m, removed, rfl⟩ := Option.map_eq_some_iff.mp moved
    rcases remove_cases removed with rfl | ⟨row, there, -, rfl⟩
    · exact inv
    · have kept : ∀ i r, (s.desk.setRow id none).rows i = some r → s.desk.rows i = some r :=
        setRow_rel (R := fun _ row row' => ∀ r, row' = some r → row = some r)
          (fun _ _ _ same => same) nofun
      exact { inv with
        known := fun i r found => inv.known i r (kept i r found)
        rows := fun i r found => inv.rows i r (kept i r found) }
  | meet ns sig label =>
    cases moved
    exact inv.meet ns sig label
  | optout id out req =>
    obtain ⟨-, rfl⟩ := fired moved
    exact inv.optout spares
  | merge survivor absorbed =>
    rw [DeferredModel.step] at moved
    split at moved
    next => cases moved
    next =>
      obtain ⟨store, done, rfl⟩ := Option.map_eq_some_iff.mp moved
      exact inv.merged spares done

/-- No row was spoken while the person it is about was opted out of its chore. -/
def Honoured (s : Sys) : Prop := ∀ e ∈ s.desk.log, e.fate ≠ .spoken true

instance (s : Sys) : Decidable (Honoured s) :=
  inferInstanceAs (Decidable (∀ e ∈ s.desk.log, e.fate ≠ .spoken true))

theorem refusals_honoured (cal : Calendar) {labels : List Op} {s : Sys}
    (run : Run (step cal) Spares created labels s) : Honoured s := by
  have kept : DeferredOnce.Inv s ∧ Faithful s.desk s.threads.flatten := by
    refine run.invariant (I := fun s => DeferredOnce.Inv s ∧ Faithful s.desk s.threads.flatten)
      (fun inv spares moved => ?_) ⟨DeferredOnce.inv_created, faithful_created⟩
    exact ⟨inv.1.step moved, inv.2.step inv.1 spares moved⟩
  intro e mem said
  cases kept.2.honoured e mem true said

/-! ## A wish for somebody who opted out under their other name -/

def seenAs (nick : String) : DossierModel.Signature :=
  { methodKind := CText.ascii "irc", nickname := CText.ascii nick, username := []
    hostname := [], verifiedId := [] }

def wish (dossier : ℕ) : Order :=
  { ns := 1, bot := 1, dossier := dossier, source := .occasion, kind := .say, repeatSecs := 0
    repeatDays := 0, repeatMinute := 0, tz := [], onPresence := false, due := 100, expires := none }

def birthdays : Mask := ⟨false, {.occasions}⟩

def delivery : List Op := [.sweep 1 1 200 [0]] ++ replicate 7 (.turn 0 true)

def twoNames : List Op :=
  [.meet 1 (seenAs "ann") [], .meet 1 (seenAs "ann2") [], .insert (wish 2)]

theorem refusals_honoured_dropped :
    ∃ s, Run (step DeferredOnce.daily) Spares created
        (twoNames ++ [.optout 2 true birthdays] ++ [.sweep 1 1 200 [0]] ++
          replicate 3 (.turn 0 true)) s ∧
      s.desk.log.map Entry.fate = [.optedOut] ∧ Honoured s :=
  ⟨_, runWhen_get (by decide +kernel), by decide +kernel,
    refusals_honoured DeferredOnce.daily (runWhen_get (by decide +kernel))⟩

/-- The opt-out and then a merge into the first dossier: the survivor holds the refusal, the row no
id, and the wish is spoken. -/
theorem merged_refusal_ignored :
    ∃ s, Run (step DeferredOnce.daily) Any created
        (twoNames ++ [.optout 2 true birthdays, .merge 1 [2]] ++ delivery) s ∧
      chatbotOptoutHas s.desk.store 1 .occasions = true ∧ s.desk.heir 2 = 1 ∧ ¬ Honoured s :=
  ⟨_, run_get (by decide +kernel), by decide +kernel⟩

end BotManager.DeferredRefusal
