/-!
# Collective nouns

What many of one thing are called.
-/

namespace YeetYoink.Yolo

def nouns : List (String × String) := [
  ("actor", "cast"), ("angel", "choir"), ("ant", "army"), ("asteroid", "belt"),
  ("bacteria", "culture"), ("badger", "cete"), ("balloon", "festival"), ("banana", "bunch"),
  ("barracuda", "battery"), ("bat", "colony"), ("beaver", "colony"), ("bee", "commonwealth"),
  ("book", "library"), ("camel", "caravan"), ("cat", "destruction"), ("cheetah", "coalition"),
  ("chick", "chattering"), ("chicken", "cluck"), ("chimpanzee", "cartload"), ("clam", "bed"),
  ("coyote", "pack"), ("crocodile", "bask"), ("crow", "murder"), ("cutlery", "canteen"),
  ("deer", "bevy"), ("director", "board"), ("diver", "bubble"), ("doctor", "confab"),
  ("donkey", "drove"), ("dove", "bevy"), ("drawer", "chest"), ("duck", "badelynge"),
  ("eagle", "aerie"), ("economist", "clashing"), ("eel", "bind"), ("egg", "clutch"),
  ("event", "chain"), ("fairie", "charm"), ("ferret", "business"), ("finche", "charm"),
  ("fish", "haul"), ("flie", "business"), ("flour", "boll"), ("flower", "bouquet"),
  ("game", "bag"), ("giraffe", "corps"), ("goat", "drove"), ("gorilla", "band"),
  ("grape", "bunch"), ("grasshopper", "cloud"), ("grouse", "brood"), ("guillemot", "bazaar"),
  ("gun", "arsenal"), ("hawk", "aerie"), ("hedgehog", "array"), ("hen", "brood"),
  ("herring", "army"), ("hippopotamus", "crash"), ("horsemen", "cavalcade"), ("hound", "cry"),
  ("hummingbird", "charm"), ("hyena", "clan"), ("insect", "swarm"), ("island", "archipelago"),
  ("judge", "bench"), ("knight", "banner"), ("lark", "ascension"), ("leper", "colony"),
  ("matche", "chain"), ("meerkat", "mob"), ("monkey", "cartload"), ("mule", "barren"),
  ("musician", "band"), ("native", "tribe"), ("onlooker", "crowd"), ("otter", "bevy"),
  ("owl", "wisdom"), ("oyster", "bed"), ("paper", "budget"), ("partridge", "bew"),
  ("peasant", "toil"), ("performer", "troupe"), ("pheasant", "brace"), ("pigeon", "bunch"),
  ("polar bear", "aurora"), ("prairie dog", "coterie"), ("ptarmigan", "covey"),
  ("puffin", "circus"), ("quail", "bevy"), ("rabbit", "wrack"), ("raven", "conspiracy"),
  ("reed", "clump"), ("rhinoceros", "crash"), ("sailor", "crew"), ("salmon", "bind"),
  ("savage", "horde"), ("seal", "harem"), ("ship", "armada"), ("slug", "cornucopia"),
  ("soldier", "brigade"), ("spider", "cluster"), ("star", "constellation"),
  ("starling", "clutter"), ("student", "class"), ("swan", "bevy"), ("thief", "den"),
  ("tiger", "ambush"), ("toucan", "durante"), ("tree", "forest"), ("truck", "convoy"),
  ("turkey", "brood"), ("turtle", "bale"), ("unicorn", "blessing"), ("vulture", "wake"),
  ("widow", "ambush"), ("wigeon", "coil"), ("woodcock", "covey"), ("worm", "clew"),
  ("zebra", "zeal")]

/-- The name of a group of what the word names. -/
def collectiveNoun? (word : String) : Option String := nouns.lookup word

end YeetYoink.Yolo
