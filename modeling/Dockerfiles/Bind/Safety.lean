import Dockerfiles.Bind.Entrypoint

/-! # The files in the data directory

Every start removes `/etc/bind` and `/var/lib/bind` with all below them. Over any
sequence of starts, stopped anywhere, of restarts, re-creations of the container
and edits of the data, no command removes or changes a file that lies under the
data directory's `etc` or `lib`, but for a plain file that stands in place of `etc`
itself: it lies under `lib` where that is a link to the data directory.
-/

namespace BindImage

open Shell FileTree

/-! ## What a start may change -/

/-- Neither of the two places the script replaces contains the data directory or
lies in it. -/
structure Apart (P : Place Text) : Prop where
  etc_below : ¬ P <:+ etcBind
  lib_below : ¬ P <:+ varLibBind
  etc_above : ¬ etcBind <:+ P
  lib_above : ¬ varLibBind <:+ P

/-- The replaced places and the inside of the data directory. -/
def changing (P : Place Text) : Set (Place Text) :=
  {q | etcBind <:+ q ∨ varLibBind <:+ q ∨ (P <:+ q ∧ q ≠ P)}

theorem Apart.layout_not_changing {P : Place Text} (h : Apart P) :
    [etcName] ∉ changing P ∧ [libName, varName] ∉ changing P := by
  refine ⟨?_, ?_⟩
  · rintro (hq | hq | hq)
    · exact absurd hq (by decide)
    · exact absurd hq (by decide)
    · exact h.etc_below (hq.1.trans (List.suffix_cons _ _))
  · rintro (hq | hq | hq)
    · exact absurd hq (by decide)
    · exact absurd hq (by decide)
    · exact h.lib_below (hq.1.trans (List.suffix_cons _ _))

/-- Outside the changing region nothing is lost, and only directories are added. -/
def Grown (P : Place Text) (k k' : Kinds Text Text) : Prop :=
  ∀ q, q ∉ changing P → k' q = k q ∨ (k q = none ∧ k' q = some .dir)

theorem Grown.refl (P : Place Text) (k : Kinds Text Text) : Grown P k k := fun _ _ => .inl rfl

theorem Grown.trans {P : Place Text} {k k' k'' : Kinds Text Text} (h : Grown P k k')
    (h' : Grown P k' k'') : Grown P k k'' := by
  intro q hq
  rcases h' q hq with he' | ⟨hn', hd'⟩
  · rw [he']
    exact h q hq
  · rcases h q hq with he | ⟨_, hd⟩
    · exact .inr ⟨he ▸ hn', hd'⟩
    · rw [hd] at hn'
      cases hn'

theorem Grown.dir {P q : Place Text} {k k' : Kinds Text Text} (h : Grown P k k')
    (hq : q ∉ changing P) (hd : k q = some .dir) : k' q = some .dir := by
  rcases h q hq with he | ⟨_, he⟩
  · rw [he, hd]
  · exact he

/-- The data directory leads to `P` if it leads anywhere, and still does when
directories have been made and what may change has changed. -/
structure Separate (c : Config) (P : Place Text) (t : FileSystem) : Prop where
  layout : Layout t
  data : ∀ k, Grown P t.kind k → ∀ r n, Walks k [] c.dataPath r n → r = P

/-- The files in the data directory stay, but for one that stands at `etc` itself. -/
def Kept (P : Place Text) (t t' : FileSystem) : Prop :=
  ∀ f content, P <:+ f → f ≠ etcName :: P → t.kind f = some (.file content) →
    t'.kind f = some (.file content)

theorem Kept.trans {P : Place Text} {t t' t'' : FileSystem} (h : Kept P t t') (h' : Kept P t' t'') :
    Kept P t t'' := fun f content hf hne hk => h' f content hf hne (h f content hf hne hk)

/-- What each command respects. -/
structure Respects (P : Place Text) (t t' : FileSystem) : Prop where
  kept : Kept P t t'
  grown : Grown P t.kind t'.kind

theorem Respects.refl (P : Place Text) (t : FileSystem) : Respects P t t :=
  ⟨fun _ _ _ _ hk => hk, Grown.refl P t.kind⟩

theorem Respects.trans {P : Place Text} {t t' t'' : FileSystem} (h : Respects P t t')
    (h' : Respects P t' t'') : Respects P t t'' :=
  ⟨h.kept.trans h'.kept, h.grown.trans h'.grown⟩

/-- A node is changed only at a replaced place, or at `etc` in the data directory
while that is no directory; elsewhere directories are added. -/
def Undisturbed (P : Place Text) (t t' : FileSystem) : Prop :=
  ∀ q, t'.kind q = t.kind q ∨ (t.kind q = none ∧ t'.kind q = some .dir) ∨ etcBind <:+ q ∨
    varLibBind <:+ q ∨ (etcName :: P <:+ q ∧ t.isDir (etcName :: P) = false)

variable {c : Config} {P : Place Text} {t t' : FileSystem}

theorem Undisturbed.grown (h : Undisturbed P t t') : Grown P t.kind t'.kind := by
  intro q hq
  rcases h q with he | hn | hb | hb | ⟨hy, _⟩
  · exact .inl he
  · exact .inr hn
  · exact absurd (.inl hb) hq
  · exact absurd (.inr (.inl hb)) hq
  · refine absurd (.inr (.inr ⟨(List.suffix_cons _ P).trans hy, ?_⟩)) hq
    rintro rfl
    exact not_cons_suffix etcName q hy

theorem Undisturbed.kept (ha : Apart P) (h : Undisturbed P t t') : Kept P t t' := by
  intro f content hf hne hk
  rcases h f with he | ⟨hn, _⟩ | hb | hb | ⟨hy, hd⟩
  · rw [he, hk]
  · rw [hn] at hk
    cases hk
  · exact absurd hb (not_suffix_of_apart hf ha.etc_below ha.etc_above)
  · exact absurd hb (not_suffix_of_apart hf ha.lib_below ha.lib_above)
  · rw [t.kind_eq_none_of_suffix hy (Ne.symm hne) hd] at hk
    cases hk

theorem Separate.mono (ha : Apart P) (h : Separate c P t) (hg : Grown P t.kind t'.kind) :
    Separate c P t' where
  layout := ⟨hg.dir ha.layout_not_changing.1 h.layout.etc_dir,
    hg.dir ha.layout_not_changing.2 h.layout.lib_dir⟩
  data k hk := h.data k (hg.trans hk)

theorem Separate.step (ha : Apart P) (h : Separate c P t) (hu : Undisturbed P t t') :
    Separate c P t' ∧ Respects P t t' := ⟨h.mono ha hu.grown, hu.kept ha, hu.grown⟩

theorem Separate.place {r : Place Text} {n : Nat} (h : Separate c P t)
    (hw : Walks t.kind [] c.dataPath r n) : r = P := h.data t.kind (Grown.refl P t.kind) r n hw

theorem Separate.resolve (h : Separate c P t) {p : Place Text}
    (hr : t.resolve c.dataPath = .found p) : p = P := by
  obtain ⟨n, _, hw⟩ := Tree.resolve_eq_found_iff.mp hr
  exact h.place hw

/-- A path of names, where no link stands on the way: all of it, some or none may be
there, and `mkdir -p` makes the rest. -/
theorem separate_of_names (ha : Apart P) (hl : Layout t) (hd : c.dataPath = P.reverse.map .name)
    (hx : ∀ q, q <:+ P → ∀ x, t.kind q ≠ some (.link x)) : Separate c P t where
  layout := hl
  data k hk r n hw := by
    rw [hd] at hw
    have hnames := hw.of_names fun q _ hq x hkq => ?_
    · rw [hnames, List.reverse_reverse, List.append_nil]
    · rw [List.reverse_reverse, List.append_nil] at hq
      have hout : q ∉ changing P := by
        rintro (hb | hb | ⟨hb, hne⟩)
        · exact ha.etc_above (hb.trans hq)
        · exact ha.lib_above (hb.trans hq)
        · exact hne (hq.eq_of_length (Nat.le_antisymm hq.length_le hb.length_le))
      rcases hk q hout with he | ⟨_, he⟩
      · exact hx q hq x (he ▸ hkq)
      · rw [he] at hkq
        cases hkq

/-! ## The commands -/

theorem undisturbed_of_grows {attr : Attr} {cs : List (Comp Text)} (h : Tree.Grows attr cs t t') :
    Undisturbed P t t' := by
  intro q
  rcases h q with he | ⟨hn, hd, _⟩
  · exact .inl (Tree.kind_congr he)
  · exact .inr (.inl ⟨(t.kind_eq_none_iff q).mpr hn, by simp [Tree.kind, hd]⟩)

theorem undisturbed_of_kind (h : t'.kind = t.kind) : Undisturbed P t t' := fun q => .inl (by rw [h])

/-- One of the two replaced places. -/
theorem undisturbed_of_replaced {parent : List (Comp Text)} {p : Place Text}
    (hm : (parent, p) ∈ parents) (h : SameElsewhere (bindName :: p) t t') : Undisturbed P t t' := by
  intro q
  simp only [parents, List.mem_cons, Prod.mk.injEq, List.not_mem_nil, or_false] at hm
  by_cases hq : bindName :: p <:+ q
  · rcases hm with ⟨rfl, rfl⟩ | ⟨rfl, rfl⟩
    · exact .inr (.inr (.inl hq))
    · exact .inr (.inr (.inr (.inl hq)))
  · exact .inl (h q hq)

section Commands

variable (ha : Apart P)

include ha

theorem meets_of_undisturbed {cmd : Cmd FileSystem}
    (h : ∀ t t', cmd.Leaves t t' → Undisturbed P t t') :
    cmd.Meets (Separate c P) (Respects P) (Separate c P) (Separate c P) :=
  .of_leaves (fun _ hs => hs) fun t t' hs hl => hs.step ha (h t t' hl)

theorem mkdir_meets (cs : List (Comp Text)) :
    (mkdir c cs).Meets (Separate c P) (Respects P) (Separate c P) (Separate c P) :=
  meets_of_undisturbed ha fun _ _ hl => undisturbed_of_grows (mkdir_leaves hl)

theorem chmodR_meets (cs : List (Comp Text)) :
    (chmodR cs).Meets (Separate c P) (Respects P) (Separate c P) (Separate c P) :=
  meets_of_undisturbed ha fun _ _ hl => undisturbed_of_kind (chmodR_leaves hl)

theorem chownR_meets (cs : List (Comp Text)) :
    (chownR c cs).Meets (Separate c P) (Respects P) (Separate c P) (Separate c P) :=
  meets_of_undisturbed ha fun _ _ hl => undisturbed_of_kind (chownR_leaves hl)

theorem chown_meets (cs : List (Comp Text)) :
    (chown c cs).Meets (Separate c P) (Respects P) (Separate c P) (Separate c P) :=
  meets_of_undisturbed ha fun _ _ hl => undisturbed_of_kind (chown_leaves hl)

/-- Before the move the destination is no directory, so nothing lies below it. -/
theorem mv_meets :
    (mv anywhere [.name etcName] bindName c.dataPath etcName).Meets (Separate c P) (Respects P)
      (fun t => Separate c P t ∧ (!t.leadsToDir (path c.etcDir)) = true) (Separate c P) := by
  refine .of_leaves (fun _ hs => hs) ?_
  intro t t' hpre hlv
  obtain ⟨h, htest⟩ := hpre
  have hl : t.leadsToDir (path c.etcDir) = false := by simpa using htest
  obtain ⟨hd, hmove⟩ := h.layout.mv_leaves (fun _ hr => h.resolve hr) hl hlv
  -- all that matters of a finished or unfinished move
  have hout : ∀ q, ¬ etcName :: P <:+ q →
      t'.node q = t.node q ∨ (etcBind <:+ q ∧ t'.node q = none) := by
    rcases hmove with hrem | hcopy | hrem
    · exact hrem.2
    · exact fun q hq => .inl (hcopy.1 q hq)
    · exact hrem.2
  refine h.step ha ?_
  intro q
  by_cases hy : etcName :: P <:+ q
  · exact .inr (.inr (.inr (.inr ⟨hy, hd⟩)))
  · rcases hout q hy with he | ⟨hb, _⟩
    · exact .inl (Tree.kind_congr he)
    · exact .inr (.inr (.inl hb))

theorem rm_meets {parent : List (Comp Text)} {p : Place Text} (hm : (parent, p) ∈ parents) :
    (rm parent bindName).Meets (Separate c P) (Respects P) (Separate c P)
      (fun t => Separate c P t ∧ t.kind (bindName :: p) = none) :=
  rm_rule hm (fun _ h => h) (fun _ h => h.layout) fun _ _ h hs =>
    h.step ha (undisturbed_of_replaced hm hs)

theorem ln_meets {parent : List (Comp Text)} {p : Place Text} (source base : Text)
    (hm : (parent, p) ∈ parents) :
    (ln source base parent bindName).Meets (Separate c P) (Respects P)
      (fun t => Separate c P t ∧ t.kind (bindName :: p) = none) (Separate c P) :=
  ln_rule hm (fun _ h => h.layout) fun _ _ h hs _ => h.step ha (undisturbed_of_replaced hm hs)

end Commands

/-! ## The script -/

theorem entrypoint_meets (c : Config) {P : Place Text} (ha : Apart P) :
    Meets (Separate c P) (Respects P) (Separate c P) (entrypoint c anywhere) (Separate c P) := by
  have keep : ∀ t, Separate c P t → Separate c P t := fun _ h => h
  have moving : (Cmd.when (fun t : FileSystem => !t.leadsToDir (path c.etcDir))
      [mv anywhere [.name etcName] bindName c.dataPath etcName]).Meets (Separate c P) (Respects P)
      (Separate c P) (Separate c P) := .when (Respects.refl P) Respects.trans
    (.cons (fun _ h => h.1) (mv_meets ha) (.nil keep)) (fun _ h _ => h)
  have making : (Cmd.when (fun t : FileSystem => !t.leadsToDir (path c.libDir))
      [mkdir c (path c.libDir), chown c (path c.libDir)]).Meets (Separate c P) (Respects P)
      (Separate c P) (Separate c P) := .when (Respects.refl P) Respects.trans
    (.cons (fun _ h => h.1) (fun t t' h => mkdir_meets ha (path c.libDir) t t' h.1)
      (.cons keep (chown_meets ha (path c.libDir)) (.nil keep))) (fun _ h _ => h)
  have data : Meets (Separate c P) (Respects P) (Separate c P) (createBindDataDir c anywhere)
      (Separate c P) :=
    .cons keep (mkdir_meets ha _) <| .cons keep (chmodR_meets ha _) <|
    .cons keep (chownR_meets ha _) <| .cons keep moving <|
    .cons keep (rm_meets ha etc_mem_parents) <|
    .cons (fun _ h => h.1) (ln_meets ha _ _ etc_mem_parents) <|
    .cons keep making <| .cons keep (rm_meets ha lib_mem_parents) <|
    .cons (fun _ h => h.1) (ln_meets ha _ _ lib_mem_parents) <| .nil keep
  have aside : ∀ cs, Meets (Separate c P) (Respects P) (Separate c P) [mkdir c cs, chown c cs]
      (Separate c P) := fun cs =>
    .cons keep (mkdir_meets ha cs) <| .cons keep (chown_meets ha cs) <| .nil keep
  exact ((aside _).append data).append (aside _)

/-! ## Runs -/

/-- Edits of the data directory, by an operator or by `named`. -/
def EditsInside (P : Place Text) (t t' : FileSystem) : Prop :=
  ∀ q, ¬ (P <:+ q ∧ q ≠ P) → t'.node q = t.node q

/-- In a container on that volume the data directory is at `P`, or is made there. -/
def Admits (c : Config) (image : FileSystem) (V P : Place Text) (v : FileSystem) : Prop :=
  ∀ hi hv, Separate c P (image.mount v V hi hv)

section Runs

variable {image : FileSystem} {V : Place Text}

theorem Grown.mount {v : FileSystem} (hi : image.isDir V = true) (hv : v.isDir V = true)
    (ht : t.isDir V = true) (h : Grown P (image.mount v V hi hv).kind t.kind) :
    Grown P (image.mount v V hi hv).kind (image.mount t V hi ht).kind := by
  intro q hq
  have hkind := h q hq
  by_cases hs : V <:+ q
  · simpa [Tree.mount, Tree.kind, hs] using hkind
  · exact .inl (by simp [Tree.mount, Tree.kind, hs])

/-- What the first container had outside the changing region is there in every later
one. -/
theorem grown_of_reachable (ha : Apart P)
    (h : Reachable image V (Admits c image V P) (entrypoint c anywhere) (EditsInside P) t) :
    ∃ v hi hv, Separate c P (image.mount v V hi hv) ∧
      Grown P (image.mount v V hi hv).kind t.kind := by
  induction h with
  | create hi hv hadmit => exact ⟨_, hi, hv, hadmit hi hv, Grown.refl P _⟩
  | start _ hs ih =>
      obtain ⟨v, hi, hv, hsep, hg⟩ := ih
      have hr := ((entrypoint_meets c ha).stops (Respects.refl P) Respects.trans hs
        (hsep.mono ha hg)).2
      exact ⟨v, hi, hv, hsep, hg.trans hr.grown⟩
  | recreate _ ht _ ih =>
      obtain ⟨v, hi, hv, hsep, hg⟩ := ih
      exact ⟨v, hi, hv, hsep, hg.mount hi hv ht⟩
  | edit _ he ih =>
      obtain ⟨v, hi, hv, hsep, hg⟩ := ih
      refine ⟨v, hi, hv, hsep, hg.trans fun q hq => .inl (Tree.kind_congr (he q ?_))⟩
      exact fun hin => hq (.inr (.inr hin))

theorem separate_of_reachable (ha : Apart P)
    (h : Reachable image V (Admits c image V P) (entrypoint c anywhere) (EditsInside P) t) :
    Separate c P t := by
  obtain ⟨_, _, _, hsep, hg⟩ := grown_of_reachable ha h
  exact hsep.mono ha hg

end Runs

/-- The place lies below a directory that the path leads to. -/
def UnderDir (cs : List (Comp Text)) (t : FileSystem) (f : Place Text) : Prop :=
  ∃ r n, Walks t.kind [] cs r n ∧ t.kind r = some .dir ∧ r <:+ f ∧ r ≠ f

/-- No link leads out of the data directory: its `etc` and `lib` are, where they are
directories, the data directory itself or inside it. -/
def Contained (c : Config) (P : Place Text) (t : FileSystem) : Prop :=
  ∀ cs ∈ [path c.etcDir, path c.libDir], ∀ r n, Walks t.kind [] cs r n → t.kind r = some .dir →
    P <:+ r

/-- From any content of the volume, through any starts, stopped anywhere,
re-creations of the container and edits of the data: no command of the script
removes or changes a file under the data directory's `etc` or `lib`, unless it is the
one that stands at `etc` itself. -/
theorem data_files_kept (c : Config) (image : FileSystem) (V P : Place Text) (ha : Apart P)
    {t a b : FileSystem}
    (hr : Reachable image V (Admits c image V P) (entrypoint c anywhere) (EditsInside P) t)
    (hm : Makes (entrypoint c anywhere) t a b) (hin : Contained c P a) {f : Place Text}
    {content : Text} (hf : UnderDir (path c.etcDir) a f ∨ UnderDir (path c.libDir) a f)
    (hne : f ≠ etcName :: P) (hk : a.kind f = some (.file content)) :
    b.kind f = some (.file content) := by
  have hkept := (hm.related (entrypoint_meets c ha) (separate_of_reachable ha hr)).kept
  obtain ⟨r, hPr, hrf⟩ : ∃ r, P <:+ r ∧ r <:+ f := by
    rcases hf with ⟨r, n, hw, hd, hrf, _⟩ | ⟨r, n, hw, hd, hrf, _⟩
    · exact ⟨r, hin _ (by simp) r n hw hd, hrf⟩
    · exact ⟨r, hin _ (by simp) r n hw hd, hrf⟩
  exact hkept f content (hPr.trans hrf) hne hk

/-! ## On the small image -/

theorem apart_data : Apart [dataName] := ⟨by decide, by decide, by decide, by decide⟩

/-- With `/data` for the volume and the data directory, every volume will do. -/
theorem admits_smallImage (v : FileSystem) :
    Admits Config.default smallImage [dataName] [dataName] v := by
  intro hi hv
  have hout : ∀ q, ¬ [dataName] <:+ q →
      (smallImage.mount v [dataName] hi hv).kind q = smallImage.kind q := by
    intro q hq
    simp [Tree.mount, Tree.kind, hq]
  refine separate_of_names apart_data ⟨?_, ?_⟩ (by decide) ?_
  · rw [hout _ (by decide)]
    decide +kernel
  · rw [hout _ (by decide)]
    decide +kernel
  · intro q hq x hk
    rcases List.suffix_cons_iff.mp hq with rfl | hq
    · have hdir : (smallImage.mount v [dataName] hi hv).kind [dataName] = some .dir := by
        rw [Tree.isDir_iff] at hv
        simpa [Tree.mount, Tree.kind] using hv
      rw [hdir] at hk
      cases hk
    · rw [List.suffix_nil.mp hq, Tree.kind_root] at hk
      cases hk

/-- A volume with a configuration of the operator's. -/
def smallVolume : FileSystem :=
  .ofList dirNode.attr [([dataName], dirNode), (dataEtc, dirNode),
    (confName :: dataEtc, fileNode "zone")]

def smallContainer : FileSystem :=
  smallImage.mount smallVolume [dataName] smallImage_data (by decide +kernel)

/-- A volume with a zone in `lib` only. -/
def zoneVolume : FileSystem :=
  .ofList dirNode.attr [([dataName], dirNode), (dataLib, dirNode),
    (confName :: dataLib, fileNode "zone")]

def zoneContainer : FileSystem :=
  smallImage.mount zoneVolume [dataName] smallImage_data (by decide +kernel)

/-- `etc` and `lib` in `/data`, where neither is a link. -/
theorem contained_data {a : FileSystem} (hdata : a.kind [dataName] = some .dir)
    (hx : ∀ n ∈ [etcName, libName], ∀ x, a.kind [n, dataName] ≠ some (.link x)) :
    Contained Config.default [dataName] a := by
  have hpath : path Config.default.etcDir = [dataName, etcName].map .name ∧
      path Config.default.libDir = [dataName, libName].map .name := by decide
  have below : ∀ n ∈ [etcName, libName], ∀ r m,
      Walks a.kind [] ([dataName, n].map .name) r m → [dataName] <:+ r := by
    intro n hn r m hw
    have hnames := hw.of_names fun q _ hq x hk => ?_
    · rw [hnames]
      exact List.suffix_cons n [dataName]
    · have hq' : q <:+ [n, dataName] := hq
      rcases List.suffix_cons_iff.mp hq' with rfl | hq'
      · exact hx n hn x hk
      · rcases List.suffix_cons_iff.mp hq' with rfl | hq'
        · rw [hdata] at hk
          cases hk
        · rw [List.suffix_nil.mp hq', Tree.kind_root] at hk
          cases hk
  intro cs hcs r m hw _
  rcases List.mem_cons.mp hcs with rfl | hcs
  · exact below etcName (by simp) r m (hpath.1 ▸ hw)
  · rw [List.mem_singleton.mp hcs] at hw
    exact below libName (by simp) r m (hpath.2 ▸ hw)

/-- The script in the image's environment. -/
abbrev defaultScript : List (Cmd FileSystem) := entrypoint Config.default anywhere

/-- Containers of the small image, with `/data` for the volume and the data directory. -/
abbrev SmallReachable : FileSystem → Prop :=
  Reachable smallImage [dataName] (Admits Config.default smallImage [dataName] [dataName])
    defaultScript (EditsInside [dataName])

/-- The default configuration is moved if there is none, by the command at position 5. -/
def moveDefaults : Cmd FileSystem :=
  .when (fun t => !t.leadsToDir (path Config.default.etcDir))
    [mv anywhere [.name etcName] bindName Config.default.dataPath etcName]

/-- The steps that move `/etc/bind` to `/data/etc` and that remove `/var/lib/bind`. -/
theorem data_files_kept_zoneContainer : ∃ a b a' b',
    Makes defaultScript zoneContainer a b ∧ a.kind dataEtc = none ∧ b.kind dataEtc = some .dir ∧
      b.kind (confName :: dataLib) = some (.file "zone".toList) ∧
    Makes defaultScript zoneContainer a' b' ∧ a'.kind varLibBind = some .dir ∧
      b'.kind varLibBind = none ∧ b'.kind (confName :: dataLib) = some (.file "zone".toList) := by
  let a := (exec (defaultScript.take 5) zoneContainer).get (by decide +kernel)
  let a' := (exec (defaultScript.take 9) zoneContainer).get (by decide +kernel)
  let remover : Cmd FileSystem := rm [.name varName, .name libName] bindName
  let b := (moveDefaults.effect a).get (by decide +kernel)
  let b' := (remover.effect a').get (by decide +kernel)
  have hmove : Makes defaultScript zoneContainer a b :=
    .of_take (k := 5) (Option.some_get _).symm rfl (Option.some_get _).symm
  have hremove : Makes defaultScript zoneContainer a' b' :=
    .of_take (k := 9) (Option.some_get _).symm rfl (Option.some_get _).symm
  have hfirst : SmallReachable zoneContainer := .create _ _ (admits_smallImage zoneVolume)
  have before : a.kind [dataName] = some .dir ∧ a.kind dataEtc = none ∧
      a.kind dataLib = some .dir ∧ a.kind (confName :: dataLib) = some (.file "zone".toList) := by
    decide +kernel
  have before' : a'.kind [dataName] = some .dir ∧ a'.kind dataEtc = some .dir ∧
      a'.kind dataLib = some .dir ∧ a'.kind (confName :: dataLib) = some (.file "zone".toList) := by
    decide +kernel
  have under : ∀ s : FileSystem, s.kind dataLib = some .dir →
      UnderDir (path Config.default.libDir) s (confName :: dataLib) := by
    intro s hs
    exact ⟨dataLib, 0, s.walks_dir hs, hs, List.suffix_cons _ _, by decide⟩
  have hin : Contained Config.default [dataName] a := by
    refine contained_data before.1 fun n hn x hk => ?_
    simp only [List.mem_cons, List.not_mem_nil, or_false] at hn
    rcases hn with rfl | rfl
    · exact absurd (before.2.1.symm.trans hk) (by simp)
    · exact absurd (before.2.2.1.symm.trans hk) (by simp)
  have hin' : Contained Config.default [dataName] a' := by
    refine contained_data before'.1 fun n hn x hk => ?_
    simp only [List.mem_cons, List.not_mem_nil, or_false] at hn
    rcases hn with rfl | rfl
    · exact absurd (before'.2.1.symm.trans hk) (by simp)
    · exact absurd (before'.2.2.1.symm.trans hk) (by simp)
  refine ⟨a, b, a', b', hmove, before.2.1, by decide +kernel, ?_, hremove, by decide +kernel,
    by decide +kernel, ?_⟩
  · exact data_files_kept Config.default smallImage [dataName] [dataName] apart_data hfirst hmove
      hin (.inr (under a before.2.2.1)) (by decide) before.2.2.2
  · exact data_files_kept Config.default smallImage [dataName] [dataName] apart_data hfirst
      hremove hin' (.inr (under a' before'.2.2.1)) (by decide) before'.2.2.2

/-- After a start, a plain file in place of `/data/etc` and a link from `/data/lib` to
`/data`. -/
def loopedContainer : FileSystem :=
  let started := (exec defaultScript smallContainer).get (by decide +kernel)
  (started.wall etcName [dataName] (fileNode "zone")).wall libName [dataName]
    ⟨.link ⟨true, [.name dataName]⟩, Config.newLink⟩

/-- The link that `/etc/bind` is since the first start is moved over the file. -/
theorem data_file_replaced : ∃ t a b content,
    SmallReachable t ∧ Makes defaultScript t a b ∧ Contained Config.default [dataName] a ∧
      UnderDir (path Config.default.libDir) a dataEtc ∧ a.kind dataEtc = some (.file content) ∧
      b.kind dataEtc ≠ some (.file content) := by
  let started := (exec defaultScript smallContainer).get (by decide +kernel)
  let a := (exec (defaultScript.take 5) loopedContainer).get (by decide +kernel)
  let b := (moveDefaults.effect a).get (by decide +kernel)
  have hmove : Makes defaultScript loopedContainer a b :=
    .of_take (k := 5) (Option.some_get _).symm rfl (Option.some_get _).symm
  have edits : ∀ (s : FileSystem) n x, s.isDir [dataName] = true →
      EditsInside [dataName] s (s.wall n [dataName] x) := by
    intro s n x hs q hq
    have hout : ¬ n :: [dataName] <:+ q := by
      intro hb
      refine hq ⟨(List.suffix_cons n [dataName]).trans hb, ?_⟩
      rintro rfl
      exact not_cons_suffix n [dataName] hb
    have hne : q ≠ n :: [dataName] := fun he => hout (he ▸ List.suffix_refl _)
    rw [Tree.wall_node _ hs, if_neg hne, if_neg hout]
  have hreach : SmallReachable loopedContainer := by
    have hstart : exec defaultScript smallContainer = some started := (Option.some_get _).symm
    refine .edit (.edit (.start (.create _ _ (admits_smallImage smallVolume)) (.of_exec hstart))
      (edits _ etcName _ ?_)) (edits _ libName _ ?_)
    · decide +kernel
    · decide +kernel
  have hetc : a.resolve (path Config.default.etcDir) = .found dataEtc := by decide +kernel
  have hlib : a.resolve (path Config.default.libDir) = .found [dataName] := by decide +kernel
  have hkinds : a.kind dataEtc = some (.file "zone".toList) ∧ a.kind [dataName] = some .dir := by
    decide +kernel
  obtain ⟨m, _, hwetc⟩ := Tree.resolve_eq_found_iff.mp hetc
  obtain ⟨m', _, hwlib⟩ := Tree.resolve_eq_found_iff.mp hlib
  refine ⟨loopedContainer, a, b, "zone".toList, hreach, hmove, ?_,
    ⟨[dataName], m', hwlib, hkinds.2, by decide, by decide⟩, hkinds.1, by decide +kernel⟩
  intro cs hcs r n hw hr
  rcases List.mem_cons.mp hcs with rfl | hcs
  · rw [(hw.unique hwetc).1, hkinds.1] at hr
    cases hr
  · rw [List.mem_singleton.mp hcs] at hw
    rw [(hw.unique hwlib).1]

end BindImage
