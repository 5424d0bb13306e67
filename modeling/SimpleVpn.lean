import SimpleVpn.Aes
import SimpleVpn.BlockCipher
import SimpleVpn.GaloisByte
import SimpleVpn.GaloisField
import SimpleVpn.Fips197
import SimpleVpn.Padding
import SimpleVpn.AesCipher
import SimpleVpn.AesKey
import SimpleVpn.AesText
import SimpleVpn.AesMode
import SimpleVpn.AesFips
import SimpleVpn.AesInverse
import SimpleVpn.AesRoundTrip
import SimpleVpn.AesMalformed
import SimpleVpn.AesChaining
import SimpleVpn.AesCalls
import SimpleVpn.AesMessages
import SimpleVpn.AesPatterns
import SimpleVpn.AesSchedule
import SimpleVpn.AesStandard
import SimpleVpn.AesOutcomes
import SimpleVpn.Header
import SimpleVpn.Application
import SimpleVpn.Tunnel
import SimpleVpn.Transition
import SimpleVpn.Relay
import SimpleVpn.Forgery
import SimpleVpn.Tokens
import SimpleVpn.Settling
import SimpleVpn.Transport
import SimpleVpn.Config
import SimpleVpn.Sniffer
