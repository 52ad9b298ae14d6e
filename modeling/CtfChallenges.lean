import CtfChallenges.AddingMachine.Adder
import CtfChallenges.Anagrams.Lines
import CtfChallenges.Earota.Audio
import CtfChallenges.Earota.Decoders
import CtfChallenges.ConfigMe.RoundTrip
import CtfChallenges.Recipes.Auth
import CtfChallenges.Recipes.Safenet
import CtfChallenges.Recipes.Isolation
import CtfChallenges.Framework.Json
import CtfChallenges.Framework.NetAddr
import CtfChallenges.Framework.BaseCodec
import CtfChallenges.Framework.UniqueCode
import CtfChallenges.Ripc4.Inversion
import CtfChallenges.Ripc4.UnionUse
import CtfChallenges.Gman.DeadEnds
import CtfChallenges.Gman.Levels
import CtfChallenges.Gman.Lives
import CtfChallenges.Gman.Score
import CtfChallenges.Matroyshka.Decoding
import CtfChallenges.Mentalist.Period
import CtfChallenges.Cards.Settlement
import CtfChallenges.Cards.Blinding
import CtfChallenges.Cards.Totality
import CtfChallenges.Cards.Stakes
import CtfChallenges.Cards.Naturals
import CtfChallenges.Chameleon.Keys
import CtfChallenges.RsaDebugger.KeyState
import CtfChallenges.RsaDebugger.Session
import CtfChallenges.Kvaas.Sharing
import CtfChallenges.Kvaas.Secret
import CtfChallenges.Kvaas.FailedInput
import CtfChallenges.Kvaas.Prompt
import CtfChallenges.Ripc4.SecureMemory
import CtfChallenges.Haystack.Winnowing
import CtfChallenges.Haystack.Cracking
import CtfChallenges.Decrypto.Streaming
import CtfChallenges.Decrypto.FileFormat
import CtfChallenges.Cards.Soft17
import CtfChallenges.Ruler.Encoder
import CtfChallenges.Ruler.Hashing
import CtfChallenges.Rusty2.Base32
import CtfChallenges.Hashpop.Request
import CtfChallenges.Hashpop.Parsing
import CtfChallenges.Hashpop.Base64
import CtfChallenges.Hashpop.Hijack
import CtfChallenges.Ripc4.KeyLines
import CtfChallenges.Chameleon.Rand
import CtfChallenges.RsaDebugger.Rejected
import CtfChallenges.RsaDebugger.NextPrime
import CtfChallenges.SmartLocky.Screen
import CtfChallenges.Decrypto.HexKey
import CtfChallenges.Anagrams.Recursion
import CtfChallenges.Mentalist.Range
import CtfChallenges.Mentalist.Game
import CtfChallenges.Mentalist.Attack
import CtfChallenges.Mentalist.LcgBreak
import CtfChallenges.Chameleon.Files
import CtfChallenges.Webbleed.Server
